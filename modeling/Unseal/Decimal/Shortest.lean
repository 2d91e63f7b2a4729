import Unseal.Decimal.Binary64
/-
  Shortest decimals — the fewest digits that read back

  A binary number is written with the fewest significant digits that round to
  it; of the decimals with that many digits the nearest is taken. The point is
  written out between 10^-5 and 10^16, with at least one digit on each side of
  it; outside that range one digit stands before the point and the exponent
  follows, with its sign.
-/

namespace Unseal.Shortest

open Binary64

/-- The least power of ten above `num / den`, for a ratio that is not zero: the number of
digits before the point. `guess` bounds it from below. -/
def pointFrom (num den : Nat) : (steps : Nat) → Int → Int
  | 0, guess => guess
  | steps + 1, guess =>
    let below := if guess ≥ 0 then num < den * Nat.pow 10 guess.toNat
      else num * Nat.pow 10 (-guess).toNat < den
    if below then guess else pointFrom num den steps (guess + 1)

/-- The number of digits before the point; negative or zero for numbers below one tenth. -/
def point (num den : Nat) : Int :=
  let guess := (log2Ratio num den * 30103) / 100000 - 1
  pointFrom num den 5 guess

/-- The decimal `d * 10 ^ k` rounds to the number: it lies between the two points half way to
the neighbours, on one of them only when the mantissa is even. -/
def roundsTo (x : Binary64) (d : Nat) (k : Int) : Bool :=
  let dn := if k ≥ 0 then d * Nat.pow 10 k.toNat else d
  let dd := if k ≥ 0 then 1 else Nat.pow 10 (-k).toNat
  -- the number is m * 2 ^ e; in quarters of its last place the ends are 4m - 2 and 4m + 2
  let e := x.exponent - 2
  let scale (m : Nat) : Nat × Nat :=
    if e ≥ 0 then (m * Nat.pow 2 e.toNat, 1) else (m, Nat.pow 2 (-e).toNat)
  let closeBelow := x.mantissa = leadingBit ∧ x.exponent > -1074
  let (ln, ld) := scale (4 * x.mantissa - (if closeBelow then 1 else 2))
  let (hn, hd) := scale (4 * x.mantissa + 2)
  if x.mantissa % 2 = 0 then ln * dd ≤ dn * ld ∧ dn * hd ≤ hn * dd
  else ln * dd < dn * ld ∧ dn * hd < hn * dd

/-- The nearest decimal with `count` digits that rounds to the number, if there is one: its
digits as a number and the power of ten of the last one. -/
def withDigits (x : Binary64) (count : Nat) : Option (Nat × Int) :=
  let k := point x.num x.den - count
  let n := if k ≥ 0 then x.num else x.num * Nat.pow 10 (-k).toNat
  let d := if k ≥ 0 then x.den * Nat.pow 10 k.toNat else x.den
  let down := n / d
  let r := n % d
  let near := if 2 * r > d ∨ (2 * r = d ∧ down % 2 = 1) then down + 1 else down
  let far := if near = down then down + 1 else down
  if roundsTo x near k then some (near, k)
  else if roundsTo x far k then some (far, k)
  else none

/-- The shortest decimal with at least `count` digits, of at most 17. -/
def digitsFrom (x : Binary64) : (steps count : Nat) → Nat × Int
  | 0, _ => (0, 0)
  | steps + 1, count =>
    match withDigits x count with
    | some found => found
    | none => digitsFrom x steps (count + 1)

/-- Takes zeros off the end of the digits. -/
def trim : (steps : Nat) → Nat → Int → Nat × Int
  | 0, d, k => (d, k)
  | steps + 1, d, k => if d % 10 = 0 then trim steps (d / 10) (k + 1) else (d, k)

def zeros (n : Nat) : List Char := List.replicate n '0'

/-- A whole number with its sign, which zero has too. -/
def signed (k : Int) : List Char := (if k < 0 then '-' else '+') :: Nat.toDigits 10 k.natAbs

/-- Digits with the last one at `10 ^ k`, as text. -/
def place (digits : List Char) (k : Int) : List Char :=
  let length : Int := digits.length
  let before := length + k
  if 0 ≤ k ∧ before ≤ 16 then digits ++ zeros k.toNat ++ ['.', '0']
  else if 0 < before ∧ before ≤ 16 then
    digits.take before.toNat ++ '.' :: digits.drop before.toNat
  else if -5 < before ∧ before ≤ 0 then '0' :: '.' :: (zeros (-before).toNat ++ digits)
  else
    let exponent := 'e' :: signed (before - 1)
    match digits with
    | [d] => d :: exponent
    | d :: rest => d :: '.' :: (rest ++ exponent)
    | [] => exponent

/-- The number as text. -/
def text (negative : Bool) (x : Binary64) : String :=
  let sign := if negative then ['-'] else []
  if x.isZero then String.ofList (sign ++ ['0', '.', '0'])
  else
    let (d, k) := digitsFrom x 17 1
    let (d, k) := trim 17 d k
    String.ofList (sign ++ place (Nat.toDigits 10 d) k)

end Unseal.Shortest
