import Unseal.Bytes
/-
  Modified UTF-8 — the text encoding of class files

  Text is written as UTF-16 units, each unit in a group of one, two or three
  bytes. No group begins with a zero byte, and characters outside the basic
  plane are two units, a high and a low surrogate, each in a group of three
  bytes. A group may be longer than its unit needs.
-/

namespace Unseal.ModifiedUtf8

/-- The six bits that a continuation byte carries. -/
def continuation? (b : UInt8) : Option Nat :=
  if b &&& 0xC0 = 0x80 then some (b &&& 0x3F).toNat else none

/-- The UTF-16 units that a byte list spells. `done` holds the units already read,
the last one first. -/
def unitsFrom : List Nat → Bytes → Option (List Nat)
  | done, [] => some done.reverse
  | done, lead :: rest =>
    if 0x01 ≤ lead ∧ lead ≤ 0x7F then
      unitsFrom (lead.toNat :: done) rest
    else if 0xC0 ≤ lead ∧ lead ≤ 0xDF then
      match rest with
      | b :: rest =>
        match continuation? b with
        | some low => unitsFrom (((lead &&& 0x1F).toNat * 64 + low) :: done) rest
        | none => none
      | [] => none
    else if 0xE0 ≤ lead ∧ lead ≤ 0xEF then
      match rest with
      | b :: b' :: rest =>
        match continuation? b, continuation? b' with
        | some middle, some low =>
          unitsFrom (((lead &&& 0x0F).toNat * 4096 + middle * 64 + low) :: done) rest
        | _, _ => none
      | _ => none
    else none

/-- The UTF-16 units that a byte list spells. -/
def units? (bs : Bytes) : Option (List Nat) := unitsFrom [] bs

def isHigh (u : Nat) : Bool := 0xD800 ≤ u && u ≤ 0xDBFF
def isLow (u : Nat) : Bool := 0xDC00 ≤ u && u ≤ 0xDFFF

/-- The character that a pair of surrogates stands for. -/
def joinPair (high low : Nat) : Char :=
  Char.ofNat (0x10000 + (high - 0xD800) * 0x400 + (low - 0xDC00))

/-- The characters that UTF-16 units spell; every surrogate has to stand in a pair.
`done` holds the characters already read, the last one first. -/
def charsFrom : List Char → List Nat → Option (List Char)
  | done, [] => some done.reverse
  | done, u :: rest =>
    if isHigh u then
      match rest with
      | low :: rest =>
        if isLow low then charsFrom (joinPair u low :: done) rest else none
      | [] => none
    else if isLow u then none
    else charsFrom (Char.ofNat u :: done) rest

/-- The text that a byte list spells, if it spells one. -/
def decode (bs : Bytes) : Option String := do
  let units ← units? bs
  let chars ← charsFrom [] units
  return String.ofList chars

end Unseal.ModifiedUtf8
