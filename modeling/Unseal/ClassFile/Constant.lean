import Unseal.Bytes
import Unseal.ClassFile.Fault
import Unseal.Text.ModifiedUtf8
/-
  Constant pool — the constants of a class file and how they are looked up

  Constants are kept in the shape they are written in, so that writing a pool
  gives back the bytes it was read from. The slots of a pool are counted from
  one; a constant of 64 bits takes two of them, and the second is empty.
-/

namespace Unseal

inductive Constant where
  /-- Text, kept as the bytes it is written in. -/
  | utf8 (text : Bytes)
  | integer (bits : UInt32)
  | float (bits : UInt32)
  | long (bits : UInt64)
  | double (bits : UInt64)
  | classEntry (name : UInt16)
  | string (text : UInt16)
  | fieldRef (owner signature : UInt16)
  | methodRef (owner signature : UInt16)
  | interfaceMethodRef (owner signature : UInt16)
  | nameAndType (name descriptor : UInt16)
  | methodHandle (kind : UInt8) (target : UInt16)
  | methodType (descriptor : UInt16)
  | dynamic (bootstrap signature : UInt16)
  | invokeDynamic (bootstrap signature : UInt16)
  | moduleEntry (name : UInt16)
  | packageEntry (name : UInt16)
  deriving DecidableEq

/-- Constants of 64 bits take two slots. -/
def Constant.isWide : Constant → Bool
  | .long _ | .double _ => true
  | _ => false

/-- A slot of the pool; `none` is the second slot of a wide constant. -/
abbrev Slot := Option Constant

/-- The slots of the pool, from slot one on. -/
structure Pool where
  slots : Array Slot
  deriving DecidableEq

namespace Pool

/-- The number that is written in front of the pool: one more than its slots. -/
def count (pool : Pool) : Nat := pool.slots.size + 1

/-- The constant at an index. Index zero, indices behind the last slot and the second
slots of wide constants hold none. -/
def get (pool : Pool) (index : UInt16) : Except ClassFault Constant :=
  if index = 0 then .error (.invalidConstantIndex 0)
  else
    match pool.slots[index.toNat - 1]? with
    | some (some constant) => .ok constant
    | _ => .error (.invalidConstantIndex index.toNat)

/-- The bytes of a `Utf8` constant. -/
def utf8Bytes (pool : Pool) (index : UInt16) : Except ClassFault Bytes :=
  match pool.get index with
  | .ok (.utf8 text) => .ok text
  | .ok _ => .error (.unexpectedConstant index.toNat .utf8)
  | .error e => .error e

/-- The text of a `Utf8` constant. -/
def utf8 (pool : Pool) (index : UInt16) : Except ClassFault String :=
  match pool.utf8Bytes index with
  | .ok text =>
    match ModifiedUtf8.decode text with
    | some s => .ok s
    | none => .error (.invalidUtf8 index.toNat)
  | .error e => .error e

/-- The name that a `Class` constant refers to, with slashes between its parts. -/
def className (pool : Pool) (index : UInt16) : Except ClassFault String :=
  match pool.get index with
  | .ok (.classEntry name) => pool.utf8 name
  | .ok _ => .error (.unexpectedConstant index.toNat .classEntry)
  | .error e => .error e

end Pool
end Unseal
