import Unseal.ClassFile.Decode
/-
  Faults of reading — what can be wrong with bytes that hold no class

  All that reads a class file is made in the same way: runs of bytes are taken,
  faults are found in what was taken, and one reader follows another. So what holds
  of every reader is proved along its making (`Reader.Made`), with one case for each
  of these, and that the reader of a class file is so made is proved once.

  A length that does not fit its field is a fault of writing. Reading takes its
  lengths from such fields, so it never meets one.

  What is proved:
    1. `Reader.made_readParts` — how the reader of a class file is made.
    2. `Reader.Made.fault` — a reader so made lacks bytes, or finds a fault in those
       that it took.
    3. `decode_fault` — bytes that are not read have a fault of reading.
-/

namespace Unseal

namespace ClassFault

/-- A fault that is found where one part of a class refers to another. -/
def OfLookup : ClassFault → Prop
  | .invalidConstantIndex _ | .unexpectedConstant _ _ | .invalidUtf8 _ | .malformedInnerClasses _ =>
    True
  | _ => False

/-- A fault of the bytes that were taken, whatever stands behind them. -/
def OfContent : ClassFault → Prop
  | .badMagic _ | .unknownConstantTag _ _ => True
  | fault => fault.OfLookup

/-- The fault is not that something is too long to be written. -/
def OfReading : ClassFault → Prop
  | .tooMany _ _ => False
  | _ => True

theorem OfLookup.ofContent {fault : ClassFault} (h : fault.OfLookup) : fault.OfContent := by
  cases fault <;> first | exact h | trivial

theorem OfContent.ofReading {fault : ClassFault} (h : fault.OfContent) : fault.OfReading := by
  cases fault <;> first | exact h | trivial

end ClassFault

namespace Reader

section
variable {α β : Type}

theorem bind_apply (r : Reader α) (k : α → Reader β) (c : Cursor) : (r >>= k) c =
    match r c with
    | .error e => .error e
    | .ok (a, d) => k a d := by
  show (r c >>= fun p : α × Cursor => k p.1 p.2) = _
  cases r c <;> rfl

theorem manyFrom_succ (r : Reader α) (n : Nat) (done : List α) :
    (manyFrom r (n + 1) done : Reader (List α)) = r >>= fun a => manyFrom r n (a :: done) := by
  funext c
  cases hc : r c <;> simp only [bind_apply, manyFrom, hc]

theorem readSlots_last (index : Nat) (done : List Slot) :
    (readSlots 1 index done : Reader (List Slot)) =
      readConstant index >>= fun constant =>
        if constant.isWide then fail (.invalidConstantIndex (index + 1))
        else pure (some constant :: done).reverse := by
  funext c
  rw [bind_apply, readSlots]
  cases readConstant index c with
  | error e => rfl
  | ok p => cases hwide : p.1.isWide <;> simp [hwide] <;> rfl

theorem readSlots_next (left index : Nat) (done : List Slot) :
    (readSlots (left + 2) index done : Reader (List Slot)) =
      readConstant index >>= fun constant =>
        if constant.isWide then readSlots left (index + 2) (none :: some constant :: done)
        else readSlots (left + 1) (index + 1) (some constant :: done) := by
  funext c
  rw [bind_apply, readSlots]
  cases readConstant index c with
  | error e => rfl
  | ok p => cases hwide : p.1.isWide <;> simp [hwide]

/-- The reader takes runs of bytes and finds faults in them, and does nothing else. -/
inductive Made : {α : Type} → Reader α → Prop where
  | pure {α : Type} (a : α) : Made (pure a)
  | fail {α : Type} {fault : ClassFault} (h : fault.OfContent) : Made (fail fault : Reader α)
  | bytes (n : Nat) : Made (bytes n)
  | bind {α β : Type} {r : Reader α} {k : α → Reader β} (hr : Made r) (hk : ∀ a, Made (k a)) :
    Made (r >>= k)

namespace Made
variable {r : Reader α}

/-- A reader so made lacks bytes, or finds a fault in those that it took. -/
theorem fault (h : Made r) {c : Cursor} {fault : ClassFault} (hr : r c = .error fault) :
    (∃ offset missing, fault = .truncated offset missing) ∨ fault.OfContent := by
  induction h generalizing c with
  | pure a => cases hr
  | fail h =>
    cases hr
    exact .inr h
  | bytes n =>
    rw [bytes_eq] at hr
    split at hr
    · cases hr
      exact .inl ⟨_, _, rfl⟩
    · cases hr
  | @bind α β r k _ _ ihr ihk =>
    rw [bind_apply] at hr
    split at hr
    · next e hread =>
      cases hr
      exact ihr hread
    · exact ihk _ hr

theorem number (width : Nat) : Made (number width) := .bind (.bytes width) fun _ => .pure _

theorem u8 : Made u8 := .bind (.number 1) fun _ => .pure _
theorem u16 : Made u16 := .bind (.number 2) fun _ => .pure _
theorem u32 : Made u32 := .bind (.number 4) fun _ => .pure _
theorem u64 : Made u64 := .bind (.number 8) fun _ => .pure _

theorem lookup {found : Except ClassFault α} (h : ∀ fault, found = .error fault → fault.OfLookup) :
    Made (lookup found) := by
  cases found with
  | error fault => exact .fail (h fault rfl).ofContent
  | ok a => exact .pure a

theorem manyFrom (hr : Made r) (n : Nat) (done : List α) :
    Made (manyFrom r n done : Reader (List α)) := by
  induction n generalizing done with
  | zero => exact .pure done.reverse
  | succ n ih =>
    rw [manyFrom_succ]
    exact .bind hr fun a => ih (a :: done)

theorem table (hr : Made r) : Made (table r) := .bind .u16 fun _ => hr.manyFrom _ []

end Made

/-! ## Constants -/

variable {r : Reader α} {s : Reader β}

theorem made_one {mk : α → Constant} (hr : Made r) : Made (do return mk (← r)) :=
  .bind hr fun _ => .pure _

theorem made_two {mk : α → β → Constant} (hr : Made r) (hs : Made s) :
    Made (do return mk (← r) (← s)) :=
  .bind hr fun _ => .bind hs fun _ => .pure _

theorem made_readTagged (index : Nat) (tag : UInt8) : Made (readTagged index tag) := by
  unfold readTagged
  split
  case h_1 => exact .bind .u16 fun _ => made_one (.bytes _)
  case h_18 => exact .fail trivial
  all_goals
    first
    | exact made_one .u16
    | exact made_one .u32
    | exact made_one .u64
    | exact made_two .u16 .u16
    | exact made_two .u8 .u16

theorem made_readConstant (index : Nat) : Made (readConstant index) :=
  .bind .u8 fun tag => made_readTagged index tag

theorem made_readSlots (left index : Nat) (done : List Slot) :
    Made (readSlots left index done : Reader (List Slot)) :=
  match left, index, done with
  | 0, _, done => .pure done.reverse
  | 1, index, done => by
    rw [readSlots_last]
    refine .bind (made_readConstant index) fun constant => ?_
    split
    · exact .fail trivial
    · exact .pure _
  | left + 2, index, done => by
    rw [readSlots_next]
    refine .bind (made_readConstant index) fun constant => ?_
    split
    · exact made_readSlots left (index + 2) (none :: some constant :: done)
    · exact made_readSlots (left + 1) (index + 1) (some constant :: done)

end

end Reader

/-! ## Look-ups -/

section
variable {pool : Pool} {index : UInt16} {fault : ClassFault}

theorem get_fault (h : pool.get index = .error fault) : fault.OfLookup := by
  unfold Pool.get at h
  split at h
  · cases h
    trivial
  · split at h
    · cases h
    · cases h
      trivial

theorem utf8Bytes_fault (h : pool.utf8Bytes index = .error fault) : fault.OfLookup := by
  unfold Pool.utf8Bytes at h
  split at h
  · cases h
  · cases h
    trivial
  · next e he =>
    cases h
    exact get_fault he

theorem utf8_fault (h : pool.utf8 index = .error fault) : fault.OfLookup := by
  unfold Pool.utf8 at h
  split at h
  · split at h
    · cases h
    · cases h
      trivial
  · next e he =>
    cases h
    exact utf8Bytes_fault he

theorem className_fault (h : pool.className index = .error fault) : fault.OfLookup := by
  unfold Pool.className at h
  split at h
  · exact utf8_fault h
  · cases h
    trivial
  · next e he =>
    cases h
    exact get_fault he

theorem findOwnEntryFrom_fault {name : String} {number : Nat} {attributes : List Attribute}
    (h : findOwnEntryFrom pool name number attributes = .error fault) : fault.OfLookup := by
  induction attributes generalizing number with
  | nil => cases h
  | cons attr rest ih =>
    rw [findOwnEntryFrom] at h
    split at h
    · next e he =>
      cases h
      exact utf8Bytes_fault he
    · split at h
      · split at h
        · cases h
          trivial
        · cases h
        · exact ih h
      · exact ih h

theorem ClassFile.identify_fault {parts : ClassFile} (h : parts.identify = .error fault) :
    fault.OfLookup := by
  unfold identify at h
  split at h
  · next e he =>
    cases h
    exact className_fault he
  · split at h
    · next e he =>
      cases h
      exact findOwnEntryFrom_fault he
    · cases h

end

/-! ## Whole files -/

namespace Reader

theorem made_readPool : Made readPool :=
  .bind .u16 fun _ => .bind (made_readSlots _ 1 []) fun _ => .pure _

theorem made_readAttributes : Made readAttributes :=
  .table (.bind .u16 fun _ => .bind .u32 fun _ => .bind (.bytes _) fun _ => .pure _)

theorem made_readField : Made readField :=
  .bind .u16 fun _ => .bind .u16 fun _ => .bind .u16 fun _ =>
    .bind made_readAttributes fun _ => .pure _

theorem made_readMethod (pool : Pool) : Made (readMethod pool) :=
  .bind .u16 fun _ => .bind .u16 fun _ => .bind .u16 fun _ =>
    .bind made_readAttributes fun _ => .bind (.lookup fun _ h => utf8_fault h) fun _ =>
      .bind (.lookup fun _ h => utf8_fault h) fun _ => .pure _

/-- All parts of a class file are read by taking bytes and finding faults in them. -/
theorem made_readParts : Made readParts := by
  refine .bind .u32 fun found => ?_
  extract_lets behindMagic
  have hbehind : ∀ u, Made (behindMagic u) := fun _ =>
    .bind .u16 fun _ => .bind .u16 fun _ => .bind made_readPool fun pool =>
      .bind .u16 fun _ => .bind .u16 fun _ => .bind .u16 fun _ =>
        .bind (.table .u16) fun _ => .bind (.table made_readField) fun _ =>
          .bind (.table (made_readMethod pool)) fun _ =>
            .bind made_readAttributes fun _ => .pure _
  split
  · exact hbehind ()
  · exact .bind (.fail trivial) hbehind

end Reader

/-- Bytes that are not read have a fault of reading. -/
theorem decode_fault {bs : Bytes} {fault : ClassFault} (h : ClassFile.decode bs = .error fault) :
    fault.OfReading := by
  unfold ClassFile.decode at h
  split at h
  · next e he =>
    cases h
    rcases Reader.made_readParts.fault he with ⟨offset, missing, rfl⟩ | hcontent
    · trivial
    · exact hcontent.ofReading
  · split at h
    · exact (ClassFile.identify_fault h).ofContent.ofReading
    · cases h
      trivial

end Unseal
