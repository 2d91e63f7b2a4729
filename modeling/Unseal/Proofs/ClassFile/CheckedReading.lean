import Unseal.ClassFile.Decode
/-
  Checked reading — reading a class file in the numbers of a machine

  The readers of class files count with numbers that have no bound, and they hold
  the bytes that are still to be read. A machine has the file in one piece and a
  position in it, and its numbers are words: indices of constants and the units of
  a text have two bytes, and positions, sizes and offsets go up to a largest number
  that depends on the machine. Here the same readers are written for a machine.
  Every sum, product and difference is checked to fit its word, every place is
  checked to lie within the bytes it is looked up in, and the loops over the pool
  and over a text are given a number of turns. A check that fails is a trap, which
  is no fault of the class file.

  What is checked:
    1. the position behind a read, and the number of bytes that are left;
    2. the bytes of a word and the slice that holds them;
    3. the index of the next constant, and of the second slot of a wide one;
    4. the parts of a unit, and the slice behind its group;
    5. the length that a table of entries has to have, the offsets of an entry and
       its two bytes.
-/

namespace Unseal

/-- A check that fails. -/
inductive Trap where
  /-- A number does not fit its word. -/
  | overflow
  /-- A place is not within the bytes. -/
  | outOfBounds
  /-- A loop has no turn left. -/
  | overrun
  deriving DecidableEq

/-- Why checked reading stops. -/
inductive Stop where
  | trap (trap : Trap)
  | fault (fault : ClassFault)
  deriving DecidableEq

abbrev Checked (α : Type) := Except Stop α

namespace Checked

/-! ## Numbers and places -/

def add (largest a b : Nat) : Checked Nat :=
  if a + b ≤ largest then .ok (a + b) else .error (.trap .overflow)

def mul (largest a b : Nat) : Checked Nat :=
  if a * b ≤ largest then .ok (a * b) else .error (.trap .overflow)

def sub (a b : Nat) : Checked Nat :=
  if b ≤ a then .ok (a - b) else .error (.trap .overflow)

def byteAt (bs : Bytes) (place : Nat) : Checked UInt8 :=
  match bs[place]? with
  | some b => .ok b
  | none => .error (.trap .outOfBounds)

/-- The bytes from one place up to another. -/
def slice (bs : Bytes) (start stop : Nat) : Checked Bytes :=
  if start ≤ stop ∧ stop ≤ bs.length then .ok ((bs.drop start).take (stop - start))
  else .error (.trap .outOfBounds)

/-- The first `n` bytes, looked up one by one. -/
def firstBytes (bs : Bytes) : Nat → Checked Bytes
  | 0 => return []
  | n + 1 => return (← firstBytes bs n) ++ [← byteAt bs n]

/-- What is looked up without a check. -/
def ofLookup {α : Type} (found : Except ClassFault α) : Checked α := found.mapError .fault

/-- Goes on after a fault, but not after a trap. -/
def caught {α : Type} : Checked α → Checked (Except ClassFault α)
  | .ok a => .ok (.ok a)
  | .error (.fault fault) => .ok (.error fault)
  | .error (.trap trap) => .error (.trap trap)

/-! ## Texts -/

def continuationAt (bs : Bytes) (place : Nat) : Option Nat :=
  bs[place]?.bind ModifiedUtf8.continuation?

/-- The unit of a group of two bytes, which carry these bits. -/
def unitOfTwo (high low : Nat) : Checked Nat := do
  add 65535 (← mul 65535 high 64) low

/-- The unit of a group of three bytes, which carry these bits. -/
def unitOfThree (high middle low : Nat) : Checked Nat := do
  let upper ← add 65535 (← mul 65535 high 4096) (← mul 65535 middle 64)
  add 65535 upper low

/-- The unit that a group spells, and the number of bytes behind the first that it takes. -/
def unit (lead : UInt8) (tail : Bytes) : Checked (Option (Nat × Nat)) :=
  if 0x01 ≤ lead ∧ lead ≤ 0x7F then return some (lead.toNat, 0)
  else if 0xC0 ≤ lead ∧ lead ≤ 0xDF then
    match continuationAt tail 0 with
    | some low => return some (← unitOfTwo (lead &&& 0x1F).toNat low, 1)
    | none => return none
  else if 0xE0 ≤ lead ∧ lead ≤ 0xEF then
    match continuationAt tail 0, continuationAt tail 1 with
    | some middle, some low => return some (← unitOfThree (lead &&& 0x0F).toNat middle low, 2)
    | _, _ => return none
  else return none

/-- The units that bytes spell, one in each turn. -/
def unitsFrom : (turns : Nat) → List Nat → Bytes → Checked (Option (List Nat))
  | _, done, [] => return some done.reverse
  | 0, _, _ :: _ => .error (.trap .overrun)
  | turns + 1, done, lead :: tail => do
    match ← unit lead tail with
    | some (u, used) => unitsFrom turns (u :: done) (← slice tail used tail.length)
    | none => return none

def text (bs : Bytes) : Checked (Option String) := do
  match ← unitsFrom bs.length [] bs with
  | some units => return (ModifiedUtf8.charsFrom [] units).map String.ofList
  | none => return none

def utf8 (pool : Pool) (index : UInt16) : Checked String := do
  match ← text (← ofLookup (pool.utf8Bytes index)) with
  | some s => return s
  | none => .error (.fault (.invalidUtf8 index.toNat))

def className (pool : Pool) (index : UInt16) : Checked String := do
  match ← ofLookup (pool.get index) with
  | .classEntry name => utf8 pool name
  | _ => .error (.fault (.unexpectedConstant index.toNat .classEntry))

end Checked

/-- A reader that goes from a position in the file to the position behind what it has read. -/
abbrev CheckedReader (α : Type) := StateT Nat (Except Stop) α

namespace CheckedReader

def fail {α : Type} (fault : ClassFault) : CheckedReader α := fun _ => .error (.fault fault)

/-- A calculation between two reads. -/
def calculate {α : Type} (result : Checked α) : CheckedReader α := fun pos => do
  return (← result, pos)

/-- Reads `n` items in a row. `done` holds the items already read, the last one first. -/
def manyFrom {α : Type} (item : CheckedReader α) : Nat → List α → CheckedReader (List α)
  | 0, done => return done.reverse
  | n + 1, done => do
    let a ← item
    manyFrom item n (a :: done)

end CheckedReader

/-- A file in the memory of a machine, and the largest of its positions, sizes and offsets. -/
structure Machine where
  file : Bytes
  largest : Nat

namespace Machine

open Checked CheckedReader

variable (m : Machine)

/-! ## Words and tables -/

/-- The next `n` bytes, in one read. -/
def bytes (n : Nat) : CheckedReader Bytes := fun pos => do
  let left ← sub m.file.length pos
  if left < n then
    let missing ← sub n left
    .error (.fault (.truncated pos missing))
  else
    let stop ← add m.largest pos n
    return (← slice m.file pos stop, stop)

/-- The next number of `width` bytes, in one read. -/
def number (width : Nat) : CheckedReader Nat := do
  let bs ← m.bytes width
  return beValue (← calculate (firstBytes bs width))

def u8 : CheckedReader UInt8 := do return UInt8.ofNat (← m.number 1)
def u16 : CheckedReader UInt16 := do return UInt16.ofNat (← m.number 2)
def u32 : CheckedReader UInt32 := do return UInt32.ofNat (← m.number 4)
def u64 : CheckedReader UInt64 := do return UInt64.ofNat (← m.number 8)

/-- Reads a table: its number of items in two bytes, then the items. -/
def table {α : Type} (item : CheckedReader α) : CheckedReader (List α) := do
  let count ← m.u16
  manyFrom item count.toNat []

/-! ## Constants -/

/-- The constant behind a tag; `index` is the slot it will take. -/
def readTagged (index : Nat) (tag : UInt8) : CheckedReader Constant := do
  match tag with
  | 1 => return .utf8 (← m.bytes (← m.u16).toNat)
  | 3 => return .integer (← m.u32)
  | 4 => return .float (← m.u32)
  | 5 => return .long (← m.u64)
  | 6 => return .double (← m.u64)
  | 7 => return .classEntry (← m.u16)
  | 8 => return .string (← m.u16)
  | 9 => return .fieldRef (← m.u16) (← m.u16)
  | 10 => return .methodRef (← m.u16) (← m.u16)
  | 11 => return .interfaceMethodRef (← m.u16) (← m.u16)
  | 12 => return .nameAndType (← m.u16) (← m.u16)
  | 15 => return .methodHandle (← m.u8) (← m.u16)
  | 16 => return .methodType (← m.u16)
  | 17 => return .dynamic (← m.u16) (← m.u16)
  | 18 => return .invokeDynamic (← m.u16) (← m.u16)
  | 19 => return .moduleEntry (← m.u16)
  | 20 => return .packageEntry (← m.u16)
  | _ => fail (.unknownConstantTag tag index)

def readConstant (index : Nat) : CheckedReader Constant := do
  m.readTagged index (← m.u8)

/-- The loop over the pool: as long as the index is below the count, one constant in each turn.
`done` holds the slots already filled, the last one first. -/
def readSlots (count : Nat) : (turns index : Nat) → List Slot → CheckedReader (List Slot)
  | 0, index, done =>
    if index < count then calculate (.error (.trap .overrun)) else return done.reverse
  | turns + 1, index, done =>
    if index < count then do
      let constant ← m.readConstant index
      if constant.isWide then
        let second ← calculate (add 65535 index 1)
        if count ≤ second then fail (.invalidConstantIndex second)
        else
          let next ← calculate (add 65535 index 2)
          readSlots count turns next (none :: some constant :: done)
      else
        let next ← calculate (add 65535 index 1)
        readSlots count turns next (some constant :: done)
    else return done.reverse

/-- The pool, which has no more constants than one less than its count. -/
def readPool : CheckedReader Pool := do
  let count ← m.u16
  let slots ← m.readSlots count.toNat (count.toNat - 1) 1 []
  return ⟨slots.toArray⟩

/-! ## The parts of a class file -/

/-- A number of four bytes as a size. -/
def size (n : UInt32) : CheckedReader Nat := fun pos =>
  if n.toNat ≤ m.largest then .ok (n.toNat, pos)
  else .error (.fault (.truncated pos m.largest))

def readAttribute : CheckedReader Attribute := do
  let nameIndex ← m.u16
  let length ← m.size (← m.u32)
  let body ← m.bytes length
  return { nameIndex, body }

def readAttributes : CheckedReader (List Attribute) := m.table m.readAttribute

def readField : CheckedReader Field := do
  let access ← m.u16
  let nameIndex ← m.u16
  let descriptorIndex ← m.u16
  let attributes ← m.readAttributes
  return { access, nameIndex, descriptorIndex, attributes }

def readMethod (pool : Pool) : CheckedReader Method := do
  let access ← m.u16
  let nameIndex ← m.u16
  let descriptorIndex ← m.u16
  let attributes ← m.readAttributes
  let name ← calculate (utf8 pool nameIndex)
  let descriptor ← calculate (utf8 pool descriptorIndex)
  return { access := ⟨access⟩, name, descriptor, nameIndex, descriptorIndex, attributes }

/-- All parts of a class file, without the name and the own entry. -/
def readParts : CheckedReader ClassFile := do
  let found ← m.u32
  unless found = magic do fail (.badMagic found)
  let minorVersion ← m.u16
  let majorVersion ← m.u16
  let pool ← m.readPool
  let access ← m.u16
  let thisClass ← m.u16
  let superClass ← m.u16
  let interfaces ← m.table m.u16
  let fields ← m.table m.readField
  let methods ← m.table (m.readMethod pool)
  let attributes ← m.readAttributes
  return {
    minorVersion, majorVersion, pool, access := ⟨access⟩, thisClass, superClass, interfaces,
    fields, methods, attributes, name := "", ownEntry := none }

/-! ## The own entry -/

/-- The offset of the flags in the first of `left` entries that is about the class of this name.
`number` is the number of the first entry still to look at. -/
def ownEntryFrom (pool : Pool) (name : String) (body : Bytes) :
    (left number : Nat) → Checked (Option Nat)
  | 0, _ => return none
  | left + 1, number => do
    let offset ← add m.largest 2 (← mul m.largest number innerEntrySize)
    let high ← byteAt body offset
    let low ← byteAt body (← add m.largest offset 1)
    match ← caught (className pool (UInt16.ofNat (beValue [high, low]))) with
    | .ok found =>
      if found = name then return some (← add m.largest offset 6)
      else ownEntryFrom pool name body left (number + 1)
    | .error _ => ownEntryFrom pool name body left (number + 1)

def ownEntryIn (pool : Pool) (name : String) (body : Bytes) : Checked (Option Nat) :=
  if body.length < 2 then .error (.fault (.malformedInnerClasses .missingCount))
  else do
    let front ← slice body 0 2
    let count := beValue [← byteAt front 0, ← byteAt front 1]
    let expected ← add m.largest 2 (← mul m.largest count innerEntrySize)
    if body.length = expected then m.ownEntryFrom pool name body count 0
    else .error (.fault (.malformedInnerClasses (.wrongLength count expected body.length)))

def findOwnEntryFrom (pool : Pool) (name : String) (number : Nat) :
    List Attribute → Checked (Option EntryPlace)
  | [] => return none
  | attr :: rest => do
    if (← ofLookup (pool.utf8Bytes attr.nameIndex)) = innerClassesName then
      match ← m.ownEntryIn pool name attr.body with
      | some offset => return some ⟨number, offset⟩
      | none => findOwnEntryFrom pool name (number + 1) rest
    else findOwnEntryFrom pool name (number + 1) rest

def identify (parts : ClassFile) : Checked ClassFile := do
  let slashed ← className parts.pool parts.thisClass
  let ownEntry ← m.findOwnEntryFrom parts.pool slashed 0 parts.attributes
  return { parts with name := Dotted.ofSlashed slashed, ownEntry }

/-- The class file that the file in memory holds, if it holds one and nothing behind it. -/
def decode : Checked ClassFile := do
  let (parts, stop) ← m.readParts 0
  let left ← sub m.file.length stop
  if 0 < left then .error (.fault (.trailingBytes left))
  else m.identify parts

end Machine
end Unseal
