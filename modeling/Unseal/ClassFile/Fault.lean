/-
  Class file faults — everything that can be wrong with a class file

  A fault is a cause: which of the format's rules was broken, and where. The
  wording is given once, by `ClassFault.message`.
-/

namespace Unseal

/-- The tables of a class file whose length is written in a field of fixed width. -/
inductive Quantity where
  | poolEntries
  | utf8Bytes
  | interfaces
  | fields
  | methods
  | attributes
  | attributeBytes
  deriving DecidableEq

/-- A quantity as it is called in messages. -/
def Quantity.phrase : Quantity → String
  | .poolEntries => "constant pool entries"
  | .utf8Bytes => "bytes in a Utf8 constant"
  | .interfaces => "interfaces"
  | .fields => "fields"
  | .methods => "methods"
  | .attributes => "attributes"
  | .attributeBytes => "bytes in an attribute"

/-- The constants that a reference can ask for by kind. -/
inductive Wanted where
  | utf8
  | classEntry
  deriving DecidableEq

def Wanted.phrase : Wanted → String
  | .utf8 => "Utf8"
  | .classEntry => "Class"

/-- What is wrong with the table of an `InnerClasses` attribute. -/
inductive TableFault where
  /-- The body is too short for the number of entries. -/
  | missingCount
  /-- The body is not as long as its number of entries asks for. -/
  | wrongLength (entries expected found : Nat)
  deriving DecidableEq

def TableFault.message : TableFault → String
  | .missingCount => "missing number_of_classes"
  | .wrongLength entries expected found =>
    s!"{entries} entries need {expected} bytes, found {found}"

inductive ClassFault where
  /-- A read at `offset` asked for `missing` bytes more than there are. -/
  | truncated (offset missing : Nat)
  | badMagic (found : UInt32)
  | unknownConstantTag (tag : UInt8) (index : Nat)
  /-- No constant can be referred to by this index. -/
  | invalidConstantIndex (index : Nat)
  /-- The index refers to a constant of another kind. -/
  | unexpectedConstant (index : Nat) (expected : Wanted)
  | invalidUtf8 (index : Nat)
  | trailingBytes (count : Nat)
  | malformedInnerClasses (fault : TableFault)
  /-- A table is too long for the field that holds its length. -/
  | tooMany (what : Quantity) (count : Nat)
  deriving DecidableEq

/-- The digits of `n` in base 16, in capitals, filled with zeros to the width. -/
def hexCapitals (width n : Nat) : String :=
  let digits := (Nat.toDigits 16 n).map Char.toUpper
  String.ofList (List.replicate (width - digits.length) '0' ++ digits)

def ClassFault.message : ClassFault → String
  | .truncated offset missing =>
    s!"unexpected end of class file at offset {offset} (needed {missing} more bytes)"
  | .badMagic found => "bad magic number 0x" ++ hexCapitals 8 found.toNat
  | .unknownConstantTag tag index => s!"unknown constant pool tag {tag} at index {index}"
  | .invalidConstantIndex index => s!"constant pool index {index} is out of range or unusable"
  | .unexpectedConstant index expected =>
    s!"constant pool index {index} is not a {expected.phrase} entry"
  | .invalidUtf8 index => s!"constant pool index {index} is not valid modified UTF-8"
  | .trailingBytes count => s!"{count} trailing bytes after class file body"
  | .malformedInnerClasses fault => "malformed InnerClasses attribute: " ++ fault.message
  | .tooMany what count => s!"too many {what.phrase} to encode ({count})"

end Unseal
