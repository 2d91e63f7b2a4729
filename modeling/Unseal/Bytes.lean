/-
  Bytes — big-endian words over byte lists

  A class file is a list of bytes; every number in it is written with its
  highest byte first. `beBytes` writes a number in a given width and `beValue`
  reads a byte list back as a number.

  What is proved:
    1. `length_beBytes` — a number takes exactly the width it is written in.
    2. `beValue_beBytes` — reading back gives the number modulo the capacity
       of the width, so nothing is lost of a number that fits.
    3. `beBytes_beValue` — a byte list is the writing of its own value.
-/

namespace Unseal

abbrev Bytes := List UInt8

/-- The number a byte list spells, highest byte first. -/
def beValue (bs : Bytes) : Nat := bs.foldl (fun n b => n * 256 + b.toNat) 0

/-- The number of values that can be written in a width. -/
def capacity : Nat → Nat
  | 0 => 1
  | width + 1 => 256 * capacity width

/-- The `width` lowest bytes of `n`, highest first. -/
def beBytes : Nat → Nat → Bytes
  | 0, _ => []
  | width + 1, n => UInt8.ofNat (n / capacity width) :: beBytes width n

@[simp] theorem length_beBytes (width n : Nat) : (beBytes width n).length = width := by
  induction width with
  | zero => rfl
  | succ width ih => simp [beBytes, ih]

theorem capacity_pos (width : Nat) : 0 < capacity width := by
  induction width with
  | zero => exact Nat.one_pos
  | succ width ih => exact Nat.mul_pos (by decide) ih

theorem foldl_beValue (bs : Bytes) (n : Nat) :
    bs.foldl (fun n b => n * 256 + b.toNat) n = n * capacity bs.length + beValue bs := by
  induction bs generalizing n with
  | nil => simp [beValue, capacity]
  | cons b bs ih =>
    rw [beValue, List.foldl_cons, List.foldl_cons, ih, ih (0 * 256 + b.toNat), List.length_cons,
      capacity, Nat.zero_mul, Nat.zero_add, Nat.add_mul, Nat.mul_assoc, Nat.add_assoc]

theorem beValue_cons (b : UInt8) (bs : Bytes) :
    beValue (b :: bs) = b.toNat * capacity bs.length + beValue bs := by
  rw [beValue, List.foldl_cons, foldl_beValue, Nat.zero_mul, Nat.zero_add]

theorem beValue_lt (bs : Bytes) : beValue bs < capacity bs.length := by
  induction bs with
  | nil => exact Nat.one_pos
  | cons b bs ih =>
    rw [beValue_cons, List.length_cons, capacity]
    have hb : b.toNat ≤ 255 := Nat.le_of_lt_succ b.toNat_lt
    have := Nat.mul_le_mul_right (capacity bs.length) hb
    omega

/-- Writing in a width keeps a number modulo the capacity of that width. -/
theorem beValue_beBytes (width n : Nat) : beValue (beBytes width n) = n % capacity width := by
  induction width with
  | zero => exact (Nat.mod_one n).symm
  | succ width ih =>
    rw [beBytes, beValue_cons, ih, length_beBytes, capacity, UInt8.toNat_ofNat',
      Nat.mul_comm 256 (capacity width), Nat.mod_mul, Nat.add_comm, Nat.mul_comm]

/-- A byte list is the writing of the number it spells. -/
theorem beBytes_beValue (bs : Bytes) : beBytes bs.length (beValue bs) = bs := by
  suffices h : ∀ n, beBytes bs.length (n * capacity bs.length + beValue bs) = bs by
    simpa using h 0
  induction bs with
  | nil => intro n; rfl
  | cons b bs ih =>
    intro n
    have hpos : 0 < capacity bs.length := capacity_pos bs.length
    have hsplit : n * capacity (bs.length + 1) + beValue (b :: bs) =
        (n * 256 + b.toNat) * capacity bs.length + beValue bs := by
      rw [beValue_cons, capacity, Nat.add_mul, Nat.mul_assoc, Nat.add_assoc]
    rw [List.length_cons, beBytes, hsplit, ih]
    congr 1
    rw [Nat.mul_comm, Nat.mul_add_div hpos, Nat.div_eq_of_lt (beValue_lt bs), Nat.add_zero]
    apply UInt8.toNat_inj.1
    rw [UInt8.toNat_ofNat']
    have := b.toNat_lt
    omega

end Unseal
