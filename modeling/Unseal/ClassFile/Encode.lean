import Unseal.ClassFile.Decode
/-
  Writing a class file

  The parts are written in the order they are read in. Writing fails only where
  a length does not fit the field it is written in, and then names the first
  such length.
-/

namespace Unseal

def u8Bytes (v : UInt8) : Bytes := [v]
def u16Bytes (v : UInt16) : Bytes := beBytes 2 v.toNat
def u32Bytes (v : UInt32) : Bytes := beBytes 4 v.toNat
def u64Bytes (v : UInt64) : Bytes := beBytes 8 v.toNat

/-- A length in a field of `width` bytes, if it fits. -/
def encodeLength (width : Nat) (what : Quantity) (count : Nat) : Except ClassFault Bytes :=
  if count < capacity width then .ok (beBytes width count) else .error (.tooMany what count)

/-- Writes all items one behind the other. `done` holds the bytes already written, the
last one first. -/
def encodeAllFrom {α : Type} (item : α → Except ClassFault Bytes) :
    Bytes → List α → Except ClassFault Bytes
  | done, [] => .ok done.reverse
  | done, a :: rest =>
    match item a with
    | .error e => .error e
    | .ok bs => encodeAllFrom item (bs.reverseAux done) rest

def encodeAll {α : Type} (item : α → Except ClassFault Bytes) (items : List α) :
    Except ClassFault Bytes :=
  encodeAllFrom item [] items

/-- Writes a table: its number of items in two bytes, then the items. -/
def encodeTable {α : Type} (what : Quantity) (item : α → Except ClassFault Bytes)
    (items : List α) : Except ClassFault Bytes := do
  let count ← encodeLength 2 what items.length
  let rest ← encodeAll item items
  return count ++ rest

/-- A constant with its tag. -/
def Constant.encode : Constant → Except ClassFault Bytes
  | .utf8 text => do
    let length ← encodeLength 2 .utf8Bytes text.length
    return 1 :: (length ++ text)
  | .integer bits => .ok (3 :: u32Bytes bits)
  | .float bits => .ok (4 :: u32Bytes bits)
  | .long bits => .ok (5 :: u64Bytes bits)
  | .double bits => .ok (6 :: u64Bytes bits)
  | .classEntry name => .ok (7 :: u16Bytes name)
  | .string text => .ok (8 :: u16Bytes text)
  | .fieldRef owner signature => .ok (9 :: (u16Bytes owner ++ u16Bytes signature))
  | .methodRef owner signature => .ok (10 :: (u16Bytes owner ++ u16Bytes signature))
  | .interfaceMethodRef owner signature => .ok (11 :: (u16Bytes owner ++ u16Bytes signature))
  | .nameAndType name descriptor => .ok (12 :: (u16Bytes name ++ u16Bytes descriptor))
  | .methodHandle kind target => .ok (15 :: (u8Bytes kind ++ u16Bytes target))
  | .methodType descriptor => .ok (16 :: u16Bytes descriptor)
  | .dynamic bootstrap signature => .ok (17 :: (u16Bytes bootstrap ++ u16Bytes signature))
  | .invokeDynamic bootstrap signature =>
    .ok (18 :: (u16Bytes bootstrap ++ u16Bytes signature))
  | .moduleEntry name => .ok (19 :: u16Bytes name)
  | .packageEntry name => .ok (20 :: u16Bytes name)

/-- The second slot of a wide constant is not written. -/
def encodeSlot : Slot → Except ClassFault Bytes
  | some constant => constant.encode
  | none => .ok []

def Pool.encode (pool : Pool) : Except ClassFault Bytes := do
  let count ← encodeLength 2 .poolEntries pool.count
  let slots ← encodeAll encodeSlot pool.slots.toList
  return count ++ slots

def Attribute.encode (a : Attribute) : Except ClassFault Bytes := do
  let length ← encodeLength 4 .attributeBytes a.body.length
  return u16Bytes a.nameIndex ++ length ++ a.body

def encodeAttributes (attributes : List Attribute) : Except ClassFault Bytes :=
  encodeTable .attributes Attribute.encode attributes

def Field.encode (f : Field) : Except ClassFault Bytes := do
  let attributes ← encodeAttributes f.attributes
  return u16Bytes f.access ++ u16Bytes f.nameIndex ++ u16Bytes f.descriptorIndex ++ attributes

def Method.encode (m : Method) : Except ClassFault Bytes := do
  let attributes ← encodeAttributes m.attributes
  return u16Bytes m.access.bits ++ u16Bytes m.nameIndex ++ u16Bytes m.descriptorIndex ++ attributes

/-- The bytes of a class file. -/
def ClassFile.encode (c : ClassFile) : Except ClassFault Bytes := do
  let pool ← c.pool.encode
  let interfaces ← encodeTable .interfaces (fun i => .ok (u16Bytes i)) c.interfaces
  let fields ← encodeTable .fields Field.encode c.fields
  let methods ← encodeTable .methods Method.encode c.methods
  let attributes ← encodeAttributes c.attributes
  return u32Bytes magic ++ u16Bytes c.minorVersion ++ u16Bytes c.majorVersion ++ pool ++
    u16Bytes c.access.bits ++ u16Bytes c.thisClass ++ u16Bytes c.superClass ++
    interfaces ++ fields ++ methods ++ attributes

end Unseal
