import Unseal.Json.Fault
/-
  JSON numbers — whole numbers of 64 bits and decimals

  Digits are collected as long as they fit in 64 bits; the ones behind count only
  as places. A number without point and exponent is whole if all its digits fit,
  and negative zero is a decimal.
-/

namespace Unseal.Json

def isDigit (c : Char) : Bool := '0' ≤ c && c ≤ '9'

def digitValue (c : Char) : Nat := c.toNat - '0'.toNat

/-- Adds digits behind a number as long as it stays below 2^64, and gives the number and the
digits left. -/
def collect : (value : Nat) → List Char → Nat × List Char
  | value, [] => (value, [])
  | value, c :: cs =>
    let next := value * 10 + digitValue c
    if next < 0x10000000000000000 then collect next cs else (value, c :: cs)

/-- The number of exponents from zero up that are told apart. -/
def exponentLimit : Nat := 0x80000000

/-- The exponent, or the nearest one that is told apart. -/
def clampExponent (e : Int) : Int :=
  if e < -exponentLimit then -exponentLimit
  else if e ≥ exponentLimit then exponentLimit - 1
  else e

/-- `digits * 10 ^ e` as a value that was found. -/
def decimal (negative : Bool) (digits : Nat) (e : Int) : Except JsonFault Found :=
  match Binary64.ofDecimal digits e with
  | some x => .ok (.decimal negative x)
  | none => .error .numberOutOfRange

/-- The value of digits read as an exponent. -/
def exponentValue (digits : List Char) : Nat :=
  digits.foldl (fun n c => n * 10 + digitValue c) 0

/-- Reads the digits of an exponent. -/
def readExponentDigits (negative : Bool) (digits : Nat) (e : Int) (down : Bool) (cs : List Char) :
    Except JsonFault Found :=
  match cs with
  | [] => .error (.unfinished .value)
  | c :: _ =>
    if isDigit c then
      let n := exponentValue (cs.takeWhile isDigit)
      if n < exponentLimit then decimal negative digits (clampExponent (if down then e - n else e + n))
      else if digits ≠ 0 ∧ !down then .error .numberOutOfRange
      else .ok (.decimal negative ⟨0, 0⟩)
    else .error .badNumber

/-- Reads the exponent behind its letter. -/
def readExponent (negative : Bool) (digits : Nat) (e : Int) : List Char → Except JsonFault Found
  | [] => .error (.unfinished .value)
  | c :: rest =>
    if c = '+' then readExponentDigits negative digits e false rest
    else if c = '-' then readExponentDigits negative digits e true rest
    else readExponentDigits negative digits e false (c :: rest)

/-- Reads an exponent, if there is one, behind a number with a point. -/
def finishDecimal (negative : Bool) (digits : Nat) (e : Int) : List Char → Except JsonFault Found
  | [] => decimal negative digits e
  | c :: rest =>
    if c = 'e' ∨ c = 'E' then readExponent negative digits e rest else decimal negative digits e

/-- Reads the places behind a point. -/
def readFraction (negative : Bool) (digits : Nat) (e : Int) (cs : List Char) :
    Except JsonFault Found :=
  let places := cs.takeWhile isDigit
  let rest := cs.dropWhile isDigit
  match places with
  | [] => if rest.isEmpty then .error (.unfinished .value) else .error .badNumber
  | _ =>
    let (value, left) := collect digits places
    finishDecimal negative value (e - (places.length - left.length : Nat)) rest

/-- Reads what follows the whole part of a number; `dropped` digits of it did not fit. -/
def finishNumber (negative : Bool) (value dropped : Nat) (rest : List Char) :
    Except JsonFault Found :=
  let whole : Except JsonFault Found :=
    if dropped ≠ 0 then decimal negative value dropped
    else if !negative then .ok (.natural value)
    else if value = 0 ∨ 0x8000000000000000 < value then decimal true value 0
    else .ok (.negative value)
  match rest with
  | [] => whole
  | c :: after =>
    if c = '.' then readFraction negative value dropped after
    else if c = 'e' ∨ c = 'E' then readExponent negative value dropped after
    else whole

/-- Reads a number behind its sign. -/
def readNumber (negative : Bool) : List Char → Except JsonFault Found
  | [] => .error (.unfinished .value)
  | c :: rest =>
    if c = '0' then
      match rest with
      | d :: _ => if isDigit d then .error .badNumber else finishNumber negative 0 0 rest
      | [] => finishNumber negative 0 0 rest
    else if isDigit c then
      let digits := (c :: rest).takeWhile isDigit
      let (value, left) := collect 0 digits
      finishNumber negative value left.length (rest.dropWhile isDigit)
    else .error .badNumber

end Unseal.Json
