import Unseal.Decimal.Shortest
import Unseal.Text.Escaped
/-
  JSON faults — what can be wrong with a JSON text

  A text is read from left to right and the first problem met is the fault. It
  is one of three kinds: the text breaks the rules of JSON, it ends too early, or
  it is JSON but not the value that is asked for.
-/

namespace Unseal

/-- What was being read when the text ended. -/
inductive Unfinished where
  | list
  | object
  | text
  | value
  deriving DecidableEq

def Unfinished.phrase : Unfinished → String
  | .list => "a list"
  | .object => "an object"
  | .text => "a string"
  | .value => "a value"

/-- A value that was found where another was asked for. -/
inductive Found where
  | null
  | bool (b : Bool)
  | natural (n : Nat)
  | negative (n : Nat)
  | decimal (minus : Bool) (x : Binary64)
  | text (s : String)
  | list
  | object
  deriving DecidableEq

def Found.phrase : Found → String
  | .null => "null"
  | .bool b => "boolean `" ++ (if b then "true" else "false") ++ "`"
  | .natural n => "integer `" ++ toString n ++ "`"
  | .negative n => "integer `-" ++ toString n ++ "`"
  | .decimal minus x => "floating point `" ++ Shortest.text minus x ++ "`"
  | .text s => "string " ++ quoted s
  | .list => "sequence"
  | .object => "map"

/-- A value that is asked for. -/
inductive Shape where
  | bool
  | text
  | list
  | rules
  deriving DecidableEq

def Shape.phrase : Shape → String
  | .bool => "a boolean"
  | .text => "a string"
  | .list => "a sequence"
  | .rules => "struct FilterConfig"

inductive JsonFault where
  | unfinished (what : Unfinished)
  | expectedColon
  | expectedCommaInList
  | expectedCommaInObject
  | expectedWord
  | expectedValue
  | badEscape
  | badNumber
  | numberOutOfRange
  | controlCharacter
  | keyNotText
  | loneSurrogate
  | unpairedEscape
  | trailingComma
  | trailingCharacters
  | wrongType (found : Found) (expected : Shape)
  | unknownKey (key : String)
  | duplicateKey (key : String)
  deriving DecidableEq

/-- The kinds of problem. -/
inductive JsonFault.Kind where
  | data
  | grammar
  | ending
  deriving DecidableEq

namespace JsonFault

def kind : JsonFault → Kind
  | .wrongType .. | .unknownKey _ | .duplicateKey _ => .data
  | .unfinished _ => .ending
  | _ => .grammar

/-- The keys of the rules as messages list them. -/
def keyList : String :=
  "`classes`, `excludedClasses`, `packages`, `excludedPackages`, `includeSubpackages`"

def message : JsonFault → String
  | .unfinished what => "EOF while parsing " ++ what.phrase
  | .expectedColon => "expected `:`"
  | .expectedCommaInList => "expected `,` or `]`"
  | .expectedCommaInObject => "expected `,` or `\x7d`"
  | .expectedWord => "expected ident"
  | .expectedValue => "expected value"
  | .badEscape => "invalid escape"
  | .badNumber => "invalid number"
  | .numberOutOfRange => "number out of range"
  | .controlCharacter => "control character (\\u0000-\\u001F) found while parsing a string"
  | .keyNotText => "key must be a string"
  | .loneSurrogate => "lone leading surrogate in hex escape"
  | .unpairedEscape => "unexpected end of hex escape"
  | .trailingComma => "trailing comma"
  | .trailingCharacters => "trailing characters"
  | .wrongType found expected => "invalid type: " ++ found.phrase ++ ", expected " ++ expected.phrase
  | .unknownKey key => "unknown field `" ++ key ++ "`, expected one of " ++ keyList
  | .duplicateKey key => "duplicate field `" ++ key ++ "`"

end JsonFault
end Unseal
