/-
  JSON values — how a report is laid out

  Values are written over several lines, two blanks for each level, one item a
  line; an empty list and an empty object stand on one line. In a text the
  quote, the backslash and the control characters are escaped and nothing else.
-/

namespace Unseal

inductive Json where
  | null
  | bool (b : Bool)
  | number (n : Nat)
  | text (s : String)
  | list (items : List Json)
  | object (fields : List (String × Json))

namespace Json

/-- Four lower-case digits of base 16. -/
def hexFour (n : Nat) : String :=
  let digits := Nat.toDigits 16 n
  String.ofList (List.replicate (4 - digits.length) '0' ++ digits)

/-- A character as it stands in a JSON text. -/
def escapeChar (c : Char) : String :=
  if c = '"' then "\\\""
  else if c = '\\' then "\\\\"
  else if c = '\n' then "\\n"
  else if c = '\r' then "\\r"
  else if c = '\t' then "\\t"
  else if c.toNat = 8 then "\\b"
  else if c.toNat = 12 then "\\f"
  else if c.toNat < 32 then "\\u" ++ hexFour c.toNat
  else c.toString

/-- A text in quotes. -/
def quote (s : String) : String :=
  s.toList.foldl (fun out c => out ++ escapeChar c) "\"" ++ "\""

/-- The beginning of a line. -/
def indentation (level : Nat) : String := String.ofList (List.replicate (2 * level) ' ')

mutual

/-- Writes a value behind `out`; its lines begin at `level`. -/
def layOut (level : Nat) (out : String) : Json → String
  | .null => out ++ "null"
  | .bool b => out ++ (if b then "true" else "false")
  | .number n => out ++ toString n
  | .text s => out ++ quote s
  | .list [] => out ++ "[]"
  | .list (item :: items) =>
    let out := layOut (level + 1) (out ++ "[\n" ++ indentation (level + 1)) item
    layOutItems level out items ++ "\n" ++ indentation level ++ "]"
  | .object [] => out ++ "\x7b\x7d"
  | .object ((key, item) :: fields) =>
    let out := layOut (level + 1)
      (out ++ "\x7b\n" ++ indentation (level + 1) ++ quote key ++ ": ") item
    layOutFields level out fields ++ "\n" ++ indentation level ++ "\x7d"

/-- Writes the further items of a list. -/
def layOutItems (level : Nat) (out : String) : List Json → String
  | [] => out
  | item :: items =>
    layOutItems level (layOut (level + 1) (out ++ ",\n" ++ indentation (level + 1)) item) items

/-- Writes the further fields of an object. -/
def layOutFields (level : Nat) (out : String) : List (String × Json) → String
  | [] => out
  | (key, item) :: fields =>
    layOutFields level
      (layOut (level + 1) (out ++ ",\n" ++ indentation (level + 1) ++ quote key ++ ": ") item)
      fields

end

/-- The value over several lines. -/
def pretty (j : Json) : String := layOut 0 "" j

end Json
end Unseal
