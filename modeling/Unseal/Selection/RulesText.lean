import Unseal.Json.Number
import Unseal.Json.Text
import Unseal.Selection.Rules
/-
  Rules as text — reading selection rules from JSON

  Rules are written as an object with up to five keys, each at most once, or as
  a list of up to five values in a fixed order; what is left out is empty or
  false. The text is read from left to right, and the first problem decides: a
  key is checked before its value is read.
-/

namespace Unseal

open Json

/-- The keys of rules, in the order of their values in a list. -/
inductive RuleKey where
  | classes
  | excludedClasses
  | packages
  | excludedPackages
  | includeSubpackages
  deriving DecidableEq

namespace RuleKey

def all : List RuleKey :=
  [.classes, .excludedClasses, .packages, .excludedPackages, .includeSubpackages]

def text : RuleKey → String
  | .classes => "classes"
  | .excludedClasses => "excludedClasses"
  | .packages => "packages"
  | .excludedPackages => "excludedPackages"
  | .includeSubpackages => "includeSubpackages"

def ofText? (s : String) : Option RuleKey := all.find? fun k => k.text == s

end RuleKey

namespace RulesText

/-- The fault of a value that is not of the shape asked for. -/
def mismatch (expected : Shape) : List Char → JsonFault
  | [] => .expectedValue
  | c :: rest =>
    let fault (found : Except JsonFault Found) : JsonFault :=
      match found with
      | .ok v => .wrongType v expected
      | .error e => e
    if c = 'n' then fault ((readWord ['u', 'l', 'l'] rest).map fun _ => .null)
    else if c = 't' then fault ((readWord ['r', 'u', 'e'] rest).map fun _ => .bool true)
    else if c = 'f' then fault ((readWord ['a', 'l', 's', 'e'] rest).map fun _ => .bool false)
    else if c = '-' then fault (readNumber true rest)
    else if isDigit c then fault (readNumber false (c :: rest))
    else if c = '"' then fault ((readText rest).map fun r => .text r.1)
    else if c = '[' then .wrongType .list expected
    else if c = '\x7b' then .wrongType .object expected
    else .expectedValue

/-- Reads a text. -/
def textValue (cs : List Char) : Except JsonFault (String × List Char) :=
  match skipBlanks cs with
  | [] => .error (.unfinished .value)
  | c :: rest => if c = '"' then readText rest else .error (mismatch .text (c :: rest))

/-- Reads a truth value. -/
def boolValue (cs : List Char) : Except JsonFault (Bool × List Char) :=
  match skipBlanks cs with
  | [] => .error (.unfinished .value)
  | c :: rest =>
    if c = 't' then (readWord ['r', 'u', 'e'] rest).map fun rest => (true, rest)
    else if c = 'f' then (readWord ['a', 'l', 's', 'e'] rest).map fun rest => (false, rest)
    else .error (mismatch .bool (c :: rest))

/-- What follows in a list: the next item, or nothing when the list ends here. -/
def nextItem (first : Bool) (cs : List Char) : Except JsonFault (Option (List Char)) :=
  match skipBlanks cs with
  | [] => .error (.unfinished .list)
  | c :: rest =>
    if c = ']' then .ok none
    else if first then .ok (some (c :: rest))
    else if c = ',' then
      match skipBlanks rest with
      | [] => .error (.unfinished .value)
      | d :: rest => if d = ']' then .error .trailingComma else .ok (some (d :: rest))
    else .error .expectedCommaInList

/-- Reads the end of a list. -/
def endList (cs : List Char) : Except JsonFault (List Char) :=
  match skipBlanks cs with
  | [] => .error (.unfinished .list)
  | c :: rest =>
    if c = ']' then .ok rest
    else if c = ',' then
      match skipBlanks rest with
      | d :: _ => if d = ']' then .error .trailingComma else .error .trailingCharacters
      | [] => .error .trailingCharacters
    else .error .trailingCharacters

/-- Reads the texts of a list and its end. Each step reads an item, so that the characters of
the list are steps enough. -/
def textsFrom : (steps : Nat) → (first : Bool) → (done : List String) → List Char →
    Except JsonFault (List String × List Char)
  | 0, _, _, _ => .error (.unfinished .list)
  | steps + 1, first, done, cs =>
    match nextItem first cs with
    | .error e => .error e
    | .ok none => (endList cs).map fun rest => (done.reverse, rest)
    | .ok (some item) =>
      match textValue item with
      | .error e => .error e
      | .ok (s, rest) => textsFrom steps false (s :: done) rest

/-- Reads a list of texts. -/
def textsValue (cs : List Char) : Except JsonFault (List String × List Char) :=
  match skipBlanks cs with
  | [] => .error (.unfinished .value)
  | c :: rest =>
    if c = '[' then textsFrom (rest.length + 1) true [] rest
    else .error (mismatch .list (c :: rest))

/-- Rules in the making: the values already read. -/
structure Draft where
  classes : Option (List String)
  excludedClasses : Option (List String)
  packages : Option (List String)
  excludedPackages : Option (List String)
  includeSubpackages : Option Bool
  deriving DecidableEq

namespace Draft

def empty : Draft := ⟨none, none, none, none, none⟩

/-- The value of the key has been read. -/
def has (d : Draft) : RuleKey → Bool
  | .classes => d.classes.isSome
  | .excludedClasses => d.excludedClasses.isSome
  | .packages => d.packages.isSome
  | .excludedPackages => d.excludedPackages.isSome
  | .includeSubpackages => d.includeSubpackages.isSome

/-- The rules, with the defaults for what was left out. -/
def rules (d : Draft) : Rules where
  classes := d.classes.getD []
  excludedClasses := d.excludedClasses.getD []
  packages := d.packages.getD []
  excludedPackages := d.excludedPackages.getD []
  includeSubpackages := d.includeSubpackages.getD false

end Draft

/-- Reads the value of a key. -/
def keyValue (key : RuleKey) (d : Draft) (cs : List Char) : Except JsonFault (Draft × List Char) :=
  match key with
  | .classes => (textsValue cs).map fun (v, rest) => ({ d with classes := some v }, rest)
  | .excludedClasses =>
    (textsValue cs).map fun (v, rest) => ({ d with excludedClasses := some v }, rest)
  | .packages => (textsValue cs).map fun (v, rest) => ({ d with packages := some v }, rest)
  | .excludedPackages =>
    (textsValue cs).map fun (v, rest) => ({ d with excludedPackages := some v }, rest)
  | .includeSubpackages =>
    (boolValue cs).map fun (v, rest) => ({ d with includeSubpackages := some v }, rest)

/-- Reads the values of a list in the order of their keys; a list may end early. -/
def listValues : (first : Bool) → List RuleKey → Draft → List Char →
    Except JsonFault (Draft × List Char)
  | _, [], d, cs => (endList cs).map fun rest => (d, rest)
  | first, key :: keys, d, cs =>
    match nextItem first cs with
    | .error e => .error e
    | .ok none => (endList cs).map fun rest => (d, rest)
    | .ok (some item) =>
      match keyValue key d item with
      | .error e => .error e
      | .ok (d, rest) => listValues false keys d rest

/-- What follows in an object: a key, behind its first quote, or nothing when the object ends
here. -/
def nextKey (first : Bool) (cs : List Char) : Except JsonFault (Option (List Char)) :=
  match skipBlanks cs with
  | [] => .error (.unfinished .object)
  | c :: rest =>
    if c = '\x7d' then .ok none
    else if first then if c = '"' then .ok (some rest) else .error .keyNotText
    else if c = ',' then
      match skipBlanks rest with
      | [] => .error (.unfinished .value)
      | d :: rest =>
        if d = '"' then .ok (some rest)
        else if d = '\x7d' then .error .trailingComma
        else .error .keyNotText
    else .error .expectedCommaInObject

/-- Reads the end of an object, which `nextKey` has seen. -/
def endObject (cs : List Char) : Except JsonFault (List Char) :=
  match skipBlanks cs with
  | [] => .error (.unfinished .object)
  | c :: rest => if c = '\x7d' then .ok rest else .error .trailingCharacters

/-- Reads the colon between a key and its value. -/
def readColon (cs : List Char) : Except JsonFault (List Char) :=
  match skipBlanks cs with
  | [] => .error (.unfinished .object)
  | c :: rest => if c = ':' then .ok rest else .error .expectedColon

/-- Reads one key and its value. -/
def readEntry (d : Draft) (cs : List Char) : Except JsonFault (Draft × List Char) :=
  match readText cs with
  | .error e => .error e
  | .ok (s, rest) =>
    match RuleKey.ofText? s with
    | none => .error (.unknownKey s)
    | some key =>
      if d.has key then .error (.duplicateKey s)
      else
        match readColon rest with
        | .error e => .error e
        | .ok rest => keyValue key d rest

/-- Reads the entries of an object and its end. Each step reads a key, so that the characters
of the object are steps enough. -/
def entriesFrom : (steps : Nat) → (first : Bool) → Draft → List Char →
    Except JsonFault (Draft × List Char)
  | 0, _, _, _ => .error (.unfinished .object)
  | steps + 1, first, d, cs =>
    match nextKey first cs with
    | .error e => .error e
    | .ok none => (endObject cs).map fun rest => (d, rest)
    | .ok (some key) =>
      match readEntry d key with
      | .error e => .error e
      | .ok (d, rest) => entriesFrom steps false d rest

/-- Reads rules, as a list or as an object. -/
def rulesValue (cs : List Char) : Except JsonFault (Draft × List Char) :=
  match skipBlanks cs with
  | [] => .error (.unfinished .value)
  | c :: rest =>
    if c = '[' then listValues true RuleKey.all Draft.empty rest
    else if c = '\x7b' then entriesFrom (rest.length + 1) true Draft.empty rest
    else .error (mismatch .rules (c :: rest))

end RulesText

/-- The rules that a JSON text holds, with nothing but blanks around them. -/
def Rules.ofText (s : String) : Except JsonFault Rules :=
  match RulesText.rulesValue s.toList with
  | .error e => .error e
  | .ok (d, rest) =>
    if (skipBlanks rest).isEmpty then .ok d.rules else .error .trailingCharacters

end Unseal
