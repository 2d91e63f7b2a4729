import Unseal.Bytes
import Unseal.ClassFile.Fault
/-
  Reader — reading a class file from left to right

  A reader takes a cursor, the bytes still to be read together with their
  offset in the file, and gives a value and the cursor behind it, or a fault.
  A word is one read: when the bytes run out inside it, the fault names the
  offset where the word begins and the number of bytes that are missing.

  What is proved:
    1. `splitFront_eq` — a read of `n` bytes gives the first `n` bytes and
       leaves the others, or, when there are fewer, tells how many are missing.
    2. `Reader.bytes_eq` — the same for a cursor, with the offset.
-/

namespace Unseal

/-- The bytes still to be read and the offset of the first of them. -/
structure Cursor where
  offset : Nat
  rest : Bytes
  deriving DecidableEq

abbrev Reader (α : Type) := StateT Cursor (Except ClassFault) α

/-- Splits off the first `n` bytes, or gives the number of bytes that are missing.
`front` holds the bytes already split off, the last one first. -/
def splitFront : Nat → Bytes → Bytes → Except Nat (Bytes × Bytes)
  | 0, front, rest => .ok (front.reverse, rest)
  | n + 1, _, [] => .error (n + 1)
  | n + 1, front, b :: rest => splitFront n (b :: front) rest

theorem splitFront_eq (n : Nat) (front rest : Bytes) : splitFront n front rest =
    if rest.length < n then .error (n - rest.length)
    else .ok (front.reverse ++ rest.take n, rest.drop n) := by
  induction n generalizing front rest with
  | zero => simp [splitFront]
  | succ n ih =>
    cases rest with
    | nil => simp [splitFront]
    | cons b rest =>
      rw [splitFront, ih]
      by_cases h : rest.length < n <;> simp [h]

namespace Reader

/-- The next `n` bytes, in one read. -/
def bytes (n : Nat) : Reader Bytes := fun c =>
  match splitFront n [] c.rest with
  | .error missing => .error (.truncated c.offset missing)
  | .ok (front, rest) => .ok (front, ⟨c.offset + n, rest⟩)

theorem bytes_eq (n : Nat) (c : Cursor) : bytes n c =
    if c.rest.length < n then .error (.truncated c.offset (n - c.rest.length))
    else .ok (c.rest.take n, ⟨c.offset + n, c.rest.drop n⟩) := by
  rw [bytes, splitFront_eq]
  by_cases h : c.rest.length < n <;> simp [h]

/-- The next number of `width` bytes, in one read. -/
def number (width : Nat) : Reader Nat := do
  let bs ← bytes width
  return beValue bs

def u8 : Reader UInt8 := do return UInt8.ofNat (← number 1)
def u16 : Reader UInt16 := do return UInt16.ofNat (← number 2)
def u32 : Reader UInt32 := do return UInt32.ofNat (← number 4)
def u64 : Reader UInt64 := do return UInt64.ofNat (← number 8)

/-- A look-up between two reads. -/
def lookup {α : Type} (found : Except ClassFault α) : Reader α := fun c =>
  match found with
  | .ok a => .ok (a, c)
  | .error e => .error e

def fail {α : Type} (fault : ClassFault) : Reader α := fun _ => .error fault

/-- Reads `n` items in a row. `done` holds the items already read, the last one first. -/
def manyFrom {α : Type} (item : Reader α) : Nat → List α → Cursor →
    Except ClassFault (List α × Cursor)
  | 0, done, c => .ok (done.reverse, c)
  | n + 1, done, c =>
    match item c with
    | .error e => .error e
    | .ok (a, c) => manyFrom item n (a :: done) c

/-- Reads `n` items in a row. -/
def many {α : Type} (n : Nat) (item : Reader α) : Reader (List α) := fun c =>
  manyFrom item n [] c

/-- Reads a table: its number of items in two bytes, then the items. -/
def table {α : Type} (item : Reader α) : Reader (List α) := do
  let count ← u16
  many count.toNat item

end Reader
end Unseal
