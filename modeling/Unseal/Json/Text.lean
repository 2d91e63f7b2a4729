import Unseal.Json.Fault
import Unseal.Text.ModifiedUtf8
/-
  JSON texts — blanks, words and quoted texts

  Each function reads from the front of a list of characters and gives what it
  has read and the rest.
-/

namespace Unseal.Json

def isBlank (c : Char) : Bool := c = ' ' || c = '\n' || c = '\t' || c = '\r'

/-- The text behind the blanks at its front. -/
def skipBlanks (cs : List Char) : List Char := cs.dropWhile isBlank

/-- Reads the rest of a word. -/
def readWord : (word : List Char) → List Char → Except JsonFault (List Char)
  | [], cs => .ok cs
  | _ :: _, [] => .error (.unfinished .value)
  | w :: word, c :: cs => if c = w then readWord word cs else .error .expectedWord

/-- The value of a digit of base 16. -/
def hexDigit? (c : Char) : Option Nat :=
  if '0' ≤ c ∧ c ≤ '9' then some (c.toNat - '0'.toNat)
  else if 'a' ≤ c ∧ c ≤ 'f' then some (c.toNat - 'a'.toNat + 10)
  else if 'A' ≤ c ∧ c ≤ 'F' then some (c.toNat - 'A'.toNat + 10)
  else none

/-- The value of four digits of base 16. -/
def hexFour? (a b c d : Char) : Option Nat :=
  match hexDigit? a, hexDigit? b, hexDigit? c, hexDigit? d with
  | some a, some b, some c, some d => some (((a * 16 + b) * 16 + c) * 16 + d)
  | _, _, _, _ => none

/-- What is wrong where fewer than four characters are left for an escape by number: the
text has ended, unless they take four bytes of UTF-8 all the same. -/
def shortHexFault (rest : List Char) : JsonFault :=
  if rest.foldl (fun n c => n + c.utf8Size) 0 < 4 then .unfinished .text else .badEscape

/-- The character behind a backslash, where it is one character. -/
def escaped? (c : Char) : Option Char :=
  if c = '"' ∨ c = '\\' ∨ c = '/' then some c
  else if c = 'b' then some '\x08'
  else if c = 'f' then some '\x0c'
  else if c = 'n' then some '\n'
  else if c = 'r' then some '\r'
  else if c = 't' then some '\t'
  else none

/-- Reads the rest of a quoted text and its last quote. `done` holds the characters already
read, the last one first. -/
def readTextFrom : (done : List Char) → List Char → Except JsonFault (String × List Char)
  | _, [] => .error (.unfinished .text)
  | done, c :: rest =>
    if c = '"' then .ok (String.ofList done.reverse, rest)
    else if c = '\\' then
      match rest with
      | [] => .error (.unfinished .text)
      | e :: rest =>
        match escaped? e with
        | some plain => readTextFrom (plain :: done) rest
        | none =>
          if e = 'u' then
            match rest with
            | h₁ :: h₂ :: h₃ :: h₄ :: rest =>
              match hexFour? h₁ h₂ h₃ h₄ with
              | none => .error .badEscape
              | some unit =>
                if ModifiedUtf8.isLow unit then .error .loneSurrogate
                else if ModifiedUtf8.isHigh unit then
                  match rest with
                  | [] => .error (.unfinished .text)
                  | backslash :: rest =>
                    if backslash = '\\' then
                      match rest with
                      | [] => .error (.unfinished .text)
                      | u :: rest =>
                        if u = 'u' then
                          match rest with
                          | l₁ :: l₂ :: l₃ :: l₄ :: rest =>
                            match hexFour? l₁ l₂ l₃ l₄ with
                            | none => .error .badEscape
                            | some low =>
                              if ModifiedUtf8.isLow low then
                                readTextFrom (ModifiedUtf8.joinPair unit low :: done) rest
                              else .error .loneSurrogate
                          | short => .error (shortHexFault short)
                        else .error .unpairedEscape
                    else .error .unpairedEscape
                else readTextFrom (Char.ofNat unit :: done) rest
            | short => .error (shortHexFault short)
          else .error .badEscape
    else if c.toNat < 32 then .error .controlCharacter
    else readTextFrom (c :: done) rest

/-- Reads the rest of a quoted text and its last quote. -/
def readText (cs : List Char) : Except JsonFault (String × List Char) := readTextFrom [] cs

end Unseal.Json
