/-
  Binary numbers of 64 bits — exact arithmetic with rounding

  A finite number is a mantissa below 2^53 times a power of two that is at
  least 2^-1074. Products and quotients are computed exactly, as quotients of
  natural numbers, and then rounded once, a tie to the even mantissa. Signs are
  kept apart.
-/

namespace Unseal

/-- The number `mantissa * 2 ^ exponent`. -/
structure Binary64 where
  mantissa : Nat
  exponent : Int
  deriving DecidableEq

namespace Binary64

/-- The first bit of a full mantissa: 2^52. -/
def leadingBit : Nat := 0x10000000000000

/-- The exponent of the largest power of two not above `num / den`. -/
def log2Ratio (num den : Nat) : Int :=
  let guess : Int := (num.log2 : Int) - (den.log2 : Int)
  let low :=
    if guess ≥ 0 then num < den * Nat.pow 2 guess.toNat else num * Nat.pow 2 (-guess).toNat < den
  if low then guess - 1 else guess

/-- The nearest whole number to `num / den`, a tie to the even one. -/
def roundRatio (num den : Nat) : Nat :=
  let q := num / den
  let r := num % den
  if 2 * r < den then q
  else if 2 * r > den then q + 1
  else if q % 2 = 0 then q else q + 1

/-- The nearest number to `num / den`; none when that is too large for 64 bits. -/
def ofRatio (num den : Nat) : Option Binary64 :=
  if num = 0 then some ⟨0, 0⟩
  else
    let place := log2Ratio num den - 52
    let e := if place < -1074 then -1074 else place
    let m := if e ≥ 0 then roundRatio num (den * Nat.pow 2 e.toNat)
      else roundRatio (num * Nat.pow 2 (-e).toNat) den
    let (m, e) := if m = 2 * leadingBit then (leadingBit, e + 1) else (m, e)
    if e > 971 then none
    else if m = 0 then some ⟨0, 0⟩
    else some ⟨m, e⟩

/-- The numerator of the number as a fraction. -/
def num (x : Binary64) : Nat :=
  if x.exponent ≥ 0 then x.mantissa * Nat.pow 2 x.exponent.toNat else x.mantissa

/-- The denominator of the number as a fraction. -/
def den (x : Binary64) : Nat := if x.exponent ≥ 0 then 1 else Nat.pow 2 (-x.exponent).toNat

def isZero (x : Binary64) : Bool := x.mantissa = 0

def times (x y : Binary64) : Option Binary64 := ofRatio (x.num * y.num) (x.den * y.den)

def quotient (x y : Binary64) : Option Binary64 := ofRatio (x.num * y.den) (x.den * y.num)

/-- The number nearest to a power of ten, up to `10 ^ 308`. -/
def tenTo (n : Nat) : Binary64 := (ofRatio (Nat.pow 10 n) 1).getD ⟨0, 0⟩

/-- Divides by `10 ^ 308` until the exponent of ten is in reach of `tenTo` or nothing is left,
at most `steps` times. -/
def lower : (steps : Nat) → Binary64 → Int → Binary64 × Int
  | 0, x, e => (x, e)
  | steps + 1, x, e =>
    if x.isZero ∨ -308 ≤ e then (x, e)
    else lower steps ((x.quotient (tenTo 308)).getD x) (e + 308)

/-- `digits * 10 ^ e`, by rounding the digits first and then one product or quotient;
none when it is too large. Three divisions by `10 ^ 308` leave nothing of any
number of 64 bits. -/
def ofDecimal (digits : Nat) (e : Int) : Option Binary64 :=
  match ofRatio digits 1 with
  | none => none
  | some x =>
    if e > 308 then if x.isZero then some x else none
    else if e ≥ 0 then x.times (tenTo e.toNat)
    else
      let (x, e) := lower 3 x e
      if x.isZero then some x else x.quotient (tenTo (-e).toNat)

end Binary64
end Unseal
