import Unseal.ClassFile.Basic
/-
  Edits — what can be changed on a class that was read

  Flags are all that is ever changed on a class: its own, those in its own entry,
  those of a method, or all of those that stripping clears. An edit of flags that
  are not there changes nothing.

  Stripping clears `final` on the class, in its own flags and in its own entry,
  and on every method that is public. It touches no other bit, and it reports
  what it cleared.
-/

namespace Unseal

/-- What stripping has cleared. -/
structure StripSummary where
  classStripped : Bool
  /-- The signatures of the methods that were public and final, in their order. -/
  methods : List String
  deriving DecidableEq

/-- Nothing was cleared. -/
def StripSummary.isEmpty (s : StripSummary) : Bool := !s.classStripped && s.methods.isEmpty

/-- The method without `final`, if it is public. -/
def Method.strip (m : Method) : Method :=
  if m.isPublicFinal then { m with access := m.access.withoutFinal } else m

namespace ClassFile

/-- The class without `final` in its own entry. -/
def stripInner (c : ClassFile) : ClassFile :=
  match c.innerAccess with
  | some access =>
    if access.isFinal then (c.setInnerAccess access.withoutFinal).getD c else c
  | none => c

/-- What stripping a class clears. -/
def stripSummary (c : ClassFile) : StripSummary where
  classStripped := c.isFinal
  methods := (c.methods.filter Method.isPublicFinal).map Method.signature

/-- The class without `final` on it and on its public methods, and what was cleared. -/
def strip (c : ClassFile) : ClassFile × StripSummary :=
  let own := if c.access.isFinal then { c with access := c.access.withoutFinal } else c
  let inner := own.stripInner
  ({ inner with methods := inner.methods.map Method.strip }, c.stripSummary)

end ClassFile

inductive Edit where
  | access (a : Access)
  | innerAccess (a : Access)
  /-- The flags of the method of this number. -/
  | methodAccess (number : Nat) (a : Access)
  | strip
  deriving DecidableEq

namespace ClassFile

/-- The class with other flags on the method of a number; none without such a method. -/
def setMethodAccess (c : ClassFile) (number : Nat) (a : Access) : Option ClassFile :=
  match c.methods[number]? with
  | none => none
  | some m => some { c with methods := c.methods.set number { m with access := a } }

def edit (c : ClassFile) : Edit → ClassFile
  | .access a => { c with access := a }
  | .innerAccess a => (c.setInnerAccess a).getD c
  | .methodAccess number a => (c.setMethodAccess number a).getD c
  | .strip => c.strip.1

/-- The class after some edits, one after the other. -/
def editAll (c : ClassFile) (edits : List Edit) : ClassFile := edits.foldl edit c

end ClassFile

end Unseal
