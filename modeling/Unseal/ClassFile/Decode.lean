import Unseal.ClassFile.Basic
import Unseal.ClassFile.Reader
/-
  Reading a class file

  The parts of a class file are read in the order they are written in. The texts
  of a method are looked up as soon as the method has been read, so a fault in
  them comes before any fault behind it; the name of the class and its own entry
  are looked up at the end.

  The own entry of a class is in an `InnerClasses` attribute. Its body is a number
  of entries in two bytes and then the entries, eight bytes each. An entry begins
  with the index of the class it is about and ends with the flags of that class.
  Attributes are looked through in order up to the first entry that names the
  class; an entry whose index does not lead to a name is passed over.
-/

namespace Unseal

/-- The name of the attribute that lists nested classes. -/
def innerClassesName : Bytes := "InnerClasses".toUTF8.data.toList

/-- The number of bytes that an entry takes. -/
def innerEntrySize : Nat := 8

/-- The number of the first of `count` entries that is about the class of this name.
`number` is the number of the first entry still to look at. -/
def ownEntryFrom (pool : Pool) (name : String) : (count number : Nat) → Bytes → Option Nat
  | count + 1, number, high :: low :: rest =>
    match pool.className (UInt16.ofNat (beValue [high, low])) with
    | .ok found =>
      if found = name then some number
      else ownEntryFrom pool name count (number + 1) (rest.drop (innerEntrySize - 2))
    | .error _ => ownEntryFrom pool name count (number + 1) (rest.drop (innerEntrySize - 2))
  | _, _, _ => none

/-- The number of the entry about the class of this name in an `InnerClasses` body. -/
def ownEntryIn (pool : Pool) (name : String) (body : Bytes) : Except TableFault (Option Nat) :=
  match body with
  | high :: low :: entries =>
    let count := beValue [high, low]
    let expected := 2 + count * innerEntrySize
    if body.length = expected then .ok (ownEntryFrom pool name count 0 entries)
    else .error (.wrongLength count expected body.length)
  | _ => .error .missingCount

/-- Looks for the own entry in the attributes; `number` is the number of the first. -/
def findOwnEntryFrom (pool : Pool) (name : String) (number : Nat) :
    List Attribute → Except ClassFault (Option EntryPlace)
  | [] => .ok none
  | attr :: rest =>
    match pool.utf8Bytes attr.nameIndex with
    | .error e => .error e
    | .ok text =>
      if text = innerClassesName then
        match ownEntryIn pool name attr.body with
        | .error fault => .error (.malformedInnerClasses fault)
        | .ok (some entry) => .ok (some ⟨number, 2 + entry * innerEntrySize + 6⟩)
        | .ok none => findOwnEntryFrom pool name (number + 1) rest
      else findOwnEntryFrom pool name (number + 1) rest

/-- The place of the own entry of the class that has this name, written with slashes. -/
def findOwnEntry (pool : Pool) (name : String) (attributes : List Attribute) :
    Except ClassFault (Option EntryPlace) :=
  findOwnEntryFrom pool name 0 attributes

open Reader

/-- The four bytes that every class file begins with. -/
def magic : UInt32 := 0xCAFEBABE

/-- The constant behind a tag; `index` is the slot it will take. -/
def readTagged (index : Nat) (tag : UInt8) : Reader Constant := do
  match tag with
  | 1 => return .utf8 (← bytes (← u16).toNat)
  | 3 => return .integer (← u32)
  | 4 => return .float (← u32)
  | 5 => return .long (← u64)
  | 6 => return .double (← u64)
  | 7 => return .classEntry (← u16)
  | 8 => return .string (← u16)
  | 9 => return .fieldRef (← u16) (← u16)
  | 10 => return .methodRef (← u16) (← u16)
  | 11 => return .interfaceMethodRef (← u16) (← u16)
  | 12 => return .nameAndType (← u16) (← u16)
  | 15 => return .methodHandle (← u8) (← u16)
  | 16 => return .methodType (← u16)
  | 17 => return .dynamic (← u16) (← u16)
  | 18 => return .invokeDynamic (← u16) (← u16)
  | 19 => return .moduleEntry (← u16)
  | 20 => return .packageEntry (← u16)
  | _ => fail (.unknownConstantTag tag index)

def readConstant (index : Nat) : Reader Constant := do
  readTagged index (← u8)

/-- Reads constants until `left` slots are filled; `index` is the first of them. A wide
constant has to leave room for its second slot. `done` holds the slots already filled,
the last one first. -/
def readSlots : (left index : Nat) → List Slot → Cursor → Except ClassFault (List Slot × Cursor)
  | 0, _, done, c => .ok (done.reverse, c)
  | 1, index, done, c =>
    match readConstant index c with
    | .error e => .error e
    | .ok (constant, c) =>
      if constant.isWide then .error (.invalidConstantIndex (index + 1))
      else .ok ((some constant :: done).reverse, c)
  | left + 2, index, done, c =>
    match readConstant index c with
    | .error e => .error e
    | .ok (constant, c) =>
      if constant.isWide then readSlots left (index + 2) (none :: some constant :: done) c
      else readSlots (left + 1) (index + 1) (some constant :: done) c

/-- The pool: one more than the number of its slots, then its constants. -/
def readPool : Reader Pool := do
  let count ← u16
  let slots ← readSlots (count.toNat - 1) 1 []
  return ⟨slots.toArray⟩

def readAttribute : Reader Attribute := do
  let nameIndex ← u16
  let length ← u32
  let body ← bytes length.toNat
  return { nameIndex, body }

def readAttributes : Reader (List Attribute) := table readAttribute

def readField : Reader Field := do
  let access ← u16
  let nameIndex ← u16
  let descriptorIndex ← u16
  let attributes ← readAttributes
  return { access, nameIndex, descriptorIndex, attributes }

def readMethod (pool : Pool) : Reader Method := do
  let access ← u16
  let nameIndex ← u16
  let descriptorIndex ← u16
  let attributes ← readAttributes
  let name ← lookup (pool.utf8 nameIndex)
  let descriptor ← lookup (pool.utf8 descriptorIndex)
  return { access := ⟨access⟩, name, descriptor, nameIndex, descriptorIndex, attributes }

/-- All parts of a class file, without the name and the own entry. -/
def readParts : Reader ClassFile := do
  let found ← u32
  unless found = magic do fail (.badMagic found)
  let minorVersion ← u16
  let majorVersion ← u16
  let pool ← readPool
  let access ← u16
  let thisClass ← u16
  let superClass ← u16
  let interfaces ← table u16
  let fields ← table readField
  let methods ← table (readMethod pool)
  let attributes ← readAttributes
  return {
    minorVersion, majorVersion, pool, access := ⟨access⟩, thisClass, superClass, interfaces,
    fields, methods, attributes, name := "", ownEntry := none }

/-- Gives a class file its name and its own entry. -/
def ClassFile.identify (parts : ClassFile) : Except ClassFault ClassFile :=
  match parts.pool.className parts.thisClass with
  | .error e => .error e
  | .ok slashed =>
    match findOwnEntry parts.pool slashed parts.attributes with
    | .error e => .error e
    | .ok ownEntry => .ok { parts with name := Dotted.ofSlashed slashed, ownEntry }

/-- The class file that the bytes hold, if they hold one and nothing behind it. -/
def ClassFile.decode (bs : Bytes) : Except ClassFault ClassFile :=
  match readParts ⟨0, bs⟩ with
  | .error e => .error e
  | .ok (parts, c) =>
    if c.rest.isEmpty then parts.identify
    else .error (.trailingBytes c.rest.length)

end Unseal
