import Unseal.ClassFile.Constant
/-
  Class file — one compiled class

  What the library does not interpret, the bodies of attributes and fields, is
  kept as it was read. Beside the tables a class file holds two things found
  when it was read: its name, and where in its attributes the entry stands that
  describes it as a nested class. Both stay as they are when the tables are
  edited.

  Its flags are sixteen bits. A bit means different things on a class, a nested
  class and a method, so each has its own table of keywords; `public` and `final`
  are the same bits in all of them. Bits without a keyword are kept.

  The name of a class is its package and its simple name with a dot between
  them; a class outside every package has its simple name alone. Class files
  write slashes for the dots.

  What is proved:
    1. `innerAccess_setInnerAccess` — flags written to the own entry are the flags
       read from it.
    2. `setInnerAccess_eq_none_iff` — they can be written exactly when they can
       be read.
-/

namespace Unseal

namespace Dotted

/-- What stands before and behind the last dot, if there is a dot. -/
def splitLast (name : List Char) : Option (List Char × List Char) :=
  match name.reverse.span (· ≠ '.') with
  | (_, []) => none
  | (simple, _ :: package) => some (package.reverse, simple.reverse)

/-- The package of a qualified name; empty without a dot. -/
def packageOf (name : String) : String :=
  match splitLast name.toList with
  | some (package, _) => String.ofList package
  | none => ""

/-- The qualified name without its package. -/
def simpleName (name : String) : String :=
  match splitLast name.toList with
  | some (_, simple) => String.ofList simple
  | none => name

/-- A name written with slashes, written with dots. -/
def ofSlashed (name : String) : String :=
  String.ofList (name.toList.map fun c => if c = '/' then '.' else c)

end Dotted

structure Access where
  bits : UInt16
  deriving DecidableEq

namespace Access

def publicBit : UInt16 := 0x0001
def finalBit : UInt16 := 0x0010

/-- All bits of the mask are set. -/
def has (a : Access) (mask : UInt16) : Bool := a.bits &&& mask = mask

def isPublic (a : Access) : Bool := a.has publicBit
def isFinal (a : Access) : Bool := a.has finalBit

/-- The same flags with `final` cleared. -/
def withoutFinal (a : Access) : Access := ⟨a.bits &&& ~~~finalBit⟩

/-- The keywords of a class, in the order they are listed. -/
def classKeywords : List (UInt16 × String) :=
  [(0x0001, "public"), (0x0010, "final"), (0x0020, "super"), (0x0200, "interface"),
   (0x0400, "abstract"), (0x1000, "synthetic"), (0x2000, "annotation"), (0x4000, "enum"),
   (0x8000, "module")]

/-- The keywords of a method, in the order they are listed. -/
def methodKeywords : List (UInt16 × String) :=
  [(0x0001, "public"), (0x0002, "private"), (0x0004, "protected"), (0x0008, "static"),
   (0x0010, "final"), (0x0020, "synchronized"), (0x0040, "bridge"), (0x0080, "varargs"),
   (0x0100, "native"), (0x0400, "abstract"), (0x0800, "strict"), (0x1000, "synthetic")]

/-- The keywords whose bits are set. -/
def keywords (a : Access) (table : List (UInt16 × String)) : List String :=
  (table.filter fun entry => a.has entry.1).map Prod.snd

def classModifiers (a : Access) : List String := a.keywords classKeywords
def methodModifiers (a : Access) : List String := a.keywords methodKeywords

end Access

structure Attribute where
  nameIndex : UInt16
  body : Bytes
  deriving DecidableEq

structure Field where
  access : UInt16
  nameIndex : UInt16
  descriptorIndex : UInt16
  attributes : List Attribute
  deriving DecidableEq

structure Method where
  access : Access
  /-- The text at `nameIndex` when the class was read. -/
  name : String
  /-- The text at `descriptorIndex` when the class was read. -/
  descriptor : String
  nameIndex : UInt16
  descriptorIndex : UInt16
  attributes : List Attribute
  deriving DecidableEq

/-- The name and the descriptor, by which a method is known in its class. -/
def Method.signature (m : Method) : String := m.name ++ m.descriptor

/-- A method that may be called from everywhere but not overridden. -/
def Method.isPublicFinal (m : Method) : Bool := m.access.isPublic && m.access.isFinal

/-- Where flags of a nested class stand: the number of an attribute and the offset of
the two bytes in its body. -/
structure EntryPlace where
  number : Nat
  offset : Nat
  deriving DecidableEq

structure ClassFile where
  minorVersion : UInt16
  majorVersion : UInt16
  pool : Pool
  access : Access
  thisClass : UInt16
  superClass : UInt16
  interfaces : List UInt16
  fields : List Field
  methods : List Method
  attributes : List Attribute
  /-- The qualified name, with dots. -/
  name : String
  /-- The entry of the class about itself, when it is a nested class. -/
  ownEntry : Option EntryPlace
  deriving DecidableEq

/-- The two bytes at an offset, as flags. -/
def flagsAt (offset : Nat) (body : Bytes) : Option Access :=
  match body.drop offset with
  | high :: low :: _ => some ⟨UInt16.ofNat (beValue [high, low])⟩
  | _ => none

/-- The body with the two bytes at an offset replaced by flags. -/
def setFlagsAt (offset : Nat) (access : Access) (body : Bytes) : Bytes :=
  body.take offset ++ beBytes 2 access.bits.toNat ++ body.drop (offset + 2)

namespace ClassFile

def package (c : ClassFile) : String := Dotted.packageOf c.name
def simpleName (c : ClassFile) : String := Dotted.simpleName c.name

/-- The flags in the own entry; none without one, or where it does not fit the attributes. -/
def innerAccess (c : ClassFile) : Option Access :=
  match c.ownEntry with
  | none => none
  | some place =>
    match c.attributes[place.number]? with
    | none => none
    | some attr => flagsAt place.offset attr.body

/-- The class with other flags in its own entry; none where there is nothing to write to. -/
def setInnerAccess (c : ClassFile) (access : Access) : Option ClassFile :=
  match c.ownEntry with
  | none => none
  | some place =>
    match c.attributes[place.number]? with
    | none => none
    | some attr =>
      match flagsAt place.offset attr.body with
      | none => none
      | some _ =>
        let edited := { attr with body := setFlagsAt place.offset access attr.body }
        some { c with attributes := c.attributes.set place.number edited }

/-- A class is final when its own flags or those of its own entry say so. -/
def isFinal (c : ClassFile) : Bool :=
  c.access.isFinal || (c.innerAccess.map Access.isFinal).getD false

/-- The first method of the given name and descriptor. -/
def method? (c : ClassFile) (name descriptor : String) : Option Method :=
  c.methods.find? fun m => m.name == name && m.descriptor == descriptor

end ClassFile

/-! ## Flags in a body -/

theorem flagsAt_setFlagsAt {offset : Nat} {access old : Access} {body : Bytes}
    (h : flagsAt offset body = some old) :
    flagsAt offset (setFlagsAt offset access body) = some access := by
  have hlen : (body.take offset).length = offset := by
    rw [List.length_take]
    unfold flagsAt at h
    split at h
    · rename_i heq
      have := congrArg List.length heq
      simp at this
      omega
    · cases h
  have hdrop : (setFlagsAt offset access body).drop offset =
      beBytes 2 access.bits.toNat ++ body.drop (offset + 2) := by
    rw [setFlagsAt, List.append_assoc, List.drop_append_of_le_length (by omega),
      List.drop_eq_nil_of_le (by omega), List.nil_append]
  have hbits : access.bits.toNat < capacity 2 := access.bits.toNat_lt
  have hval : beValue (beBytes 2 access.bits.toNat) = access.bits.toNat := by
    rw [beValue_beBytes, Nat.mod_eq_of_lt hbits]
  simp only [beBytes] at hval hdrop
  simp only [flagsAt, hdrop, List.cons_append, List.nil_append, hval, UInt16.ofNat_toNat]

theorem ClassFile.setInnerAccess_eq_none_iff (c : ClassFile) (access : Access) :
    c.setInnerAccess access = none ↔ c.innerAccess = none := by
  unfold setInnerAccess innerAccess
  split <;> try simp
  split <;> try simp
  split <;> simp_all

theorem ClassFile.innerAccess_setInnerAccess {c d : ClassFile} {access : Access}
    (h : c.setInnerAccess access = some d) : d.innerAccess = some access := by
  unfold setInnerAccess at h
  split at h
  · cases h
  · rename_i place hplace
    split at h
    · cases h
    · rename_i attr hattr
      split at h
      · cases h
      · rename_i old hold
        injection h with h
        subst h
        have hlt := (List.getElem?_eq_some_iff.1 hattr).1
        simp only [innerAccess, hplace, List.getElem?_set_self hlt]
        exact flagsAt_setFlagsAt hold

end Unseal
