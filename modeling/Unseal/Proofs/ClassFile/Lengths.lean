import Unseal.Proofs.ClassFile.RoundTrip
/-
  Lengths — what a writer checks, in the order in which it is written

  Every table and every run of bytes in a class file stands behind its length, and
  that is the only thing about it that can be refused. A writer is told here by the
  lengths that it writes: if all of them fit it gives bytes, and otherwise it names
  the first that does not (`Checks`). Parts that are written one behind the other
  check their lengths one behind the other, so the lengths of a whole file are
  those of its parts in a row.

  What is proved:
    1. `Checks.bind`, `Checks.all`, `Checks.table` — writers made of parts check the
       lengths of their parts in order.
    2. `checks_encode` — writing a class file checks its lengths, in the order of
       the file.
    3. `encode_refuses_first` — a class is written exactly if all its lengths fit,
       and otherwise the first that does not is named.
-/

namespace Unseal

/-- The greatest number that the field of such a length holds. -/
def Quantity.greatest : Quantity → Nat
  | .attributeBytes => 4294967295
  | .poolEntries | .utf8Bytes | .interfaces | .fields | .methods | .attributes => 65535

/-- A length that is written, and what it counts. -/
structure Length where
  what : Quantity
  count : Nat
  deriving DecidableEq

/-- The length fits the field that it is written in. -/
def Length.fits (l : Length) : Bool := l.count ≤ l.what.greatest

/-- The first length that does not fit. -/
def firstOversize (lengths : List Length) : Option Length := lengths.find? (!·.fits)

/-! ## The lengths of a class file, in the order of the file -/

/-- Only the size of a text is written. -/
def Slot.lengths : Slot → List Length
  | some (.utf8 text) => [⟨.utf8Bytes, text.length⟩]
  | _ => []

def Pool.lengths (pool : Pool) : List Length :=
  ⟨.poolEntries, pool.count⟩ :: pool.slots.toList.flatMap Slot.lengths

/-- The number of items of a table, and then the lengths in each of them. -/
def tableLengths {α : Type} (what : Quantity) (lengths : α → List Length) (items : List α) :
    List Length :=
  ⟨what, items.length⟩ :: items.flatMap lengths

def attributesLengths (attributes : List Attribute) : List Length :=
  tableLengths .attributes (fun a => [⟨.attributeBytes, a.body.length⟩]) attributes

def ClassFile.lengths (c : ClassFile) : List Length :=
  c.pool.lengths ++
  tableLengths .interfaces (fun _ => []) c.interfaces ++
  tableLengths .fields (fun f => attributesLengths f.attributes) c.fields ++
  tableLengths .methods (fun m => attributesLengths m.attributes) c.methods ++
  attributesLengths c.attributes

/-! ## Writers and what they check -/

/-- The writer gives bytes if all these lengths fit, and otherwise names the first that does not. -/
def Checks (written : Except ClassFault Bytes) (lengths : List Length) : Prop :=
  match firstOversize lengths with
  | none => ∃ bs, written = .ok bs
  | some l => written = .error (.tooMany l.what l.count)

namespace Checks

variable {α : Type} {written : Except ClassFault Bytes} {lengths lengths' : List Length}

theorem nothing (bs : Bytes) : Checks (.ok bs) [] := ⟨bs, rfl⟩

theorem length {width : Nat} {what : Quantity} (hwidth : capacity width = what.greatest + 1)
    (count : Nat) : Checks (encodeLength width what count) [⟨what, count⟩] := by
  unfold Checks firstOversize encodeLength
  by_cases hfits : count ≤ what.greatest
  · have hlt : count < capacity width := by omega
    simp [Length.fits, hfits, hlt]
  · have hge : ¬ count < capacity width := by omega
    simp [Length.fits, hfits, hge]

/-- What is written behind a part is checked behind it. -/
theorem bind {next : Bytes → Except ClassFault Bytes} (h : Checks written lengths)
    (hnext : ∀ bs, Checks (next bs) lengths') :
    Checks (written >>= next) (lengths ++ lengths') := by
  unfold Checks firstOversize at h ⊢
  rw [List.find?_append]
  cases hfirst : lengths.find? (!·.fits) with
  | none =>
    rw [hfirst] at h
    obtain ⟨bs, rfl⟩ := h
    exact hnext bs
  | some l =>
    rw [hfirst] at h
    rw [h]
    rfl

theorem around (f : Bytes → Bytes) (h : Checks written lengths) :
    Checks (do return f (← written)) lengths := by
  have hnothing := h.bind fun bs => nothing (f bs)
  rwa [List.append_nil] at hnothing

variable {item : α → Except ClassFault Bytes} {itemLengths : α → List Length}

/-- Items in a row are checked one behind the other, by induction on the row. -/
theorem all (h : ∀ a, Checks (item a) (itemLengths a)) (items : List α) :
    Checks (encodeAll item items) (items.flatMap itemLengths) := by
  induction items with
  | nil => exact nothing []
  | cons a items ih =>
    rw [encodeAll_cons, List.flatMap_cons]
    exact (h a).bind fun bs => ih.around (bs ++ ·)

/-- The number of items of a table is checked before the items. -/
theorem table {what : Quantity} (hwhat : what.greatest = 65535)
    (h : ∀ a, Checks (item a) (itemLengths a)) (items : List α) :
    Checks (encodeTable what item items) (tableLengths what itemLengths items) := by
  have hcount : Checks (encodeLength 2 what items.length) [⟨what, items.length⟩] :=
    length (by rw [hwhat]; rfl) items.length
  exact hcount.bind fun count => (all h items).around (count ++ ·)

end Checks

/-! ## Parts of a class file -/

theorem checks_slot (s : Slot) : Checks (encodeSlot s) s.lengths := by
  match s with
  | some (.utf8 text) =>
    exact (Checks.length rfl text.length).around fun length => 1 :: (length ++ text)
  | none
  | some (.integer _) | some (.float _) | some (.long _) | some (.double _)
  | some (.classEntry _) | some (.string _) | some (.fieldRef _ _) | some (.methodRef _ _)
  | some (.interfaceMethodRef _ _) | some (.nameAndType _ _) | some (.methodHandle _ _)
  | some (.methodType _) | some (.dynamic _ _) | some (.invokeDynamic _ _)
  | some (.moduleEntry _) | some (.packageEntry _) => exact Checks.nothing _

theorem checks_pool (pool : Pool) : Checks pool.encode pool.lengths := by
  have hcount : Checks (encodeLength 2 .poolEntries pool.count) [⟨.poolEntries, pool.count⟩] :=
    Checks.length rfl pool.count
  exact hcount.bind fun count => (Checks.all checks_slot pool.slots.toList).around (count ++ ·)

theorem checks_attributes (attributes : List Attribute) :
    Checks (encodeAttributes attributes) (attributesLengths attributes) := by
  apply Checks.table rfl
  intro a
  exact (Checks.length rfl a.body.length).around
    fun length => u16Bytes a.nameIndex ++ length ++ a.body

theorem checks_field (f : Field) : Checks f.encode (attributesLengths f.attributes) :=
  (checks_attributes f.attributes).around fun attributes =>
    u16Bytes f.access ++ u16Bytes f.nameIndex ++ u16Bytes f.descriptorIndex ++ attributes

theorem checks_method (m : Method) : Checks m.encode (attributesLengths m.attributes) :=
  (checks_attributes m.attributes).around fun attributes =>
    u16Bytes m.access.bits ++ u16Bytes m.nameIndex ++ u16Bytes m.descriptorIndex ++ attributes

theorem checks_interfaces (interfaces : List UInt16) :
    Checks (encodeTable .interfaces (fun i => .ok (u16Bytes i)) interfaces)
      (tableLengths .interfaces (fun _ => []) interfaces) :=
  Checks.table rfl (fun i => Checks.nothing (u16Bytes i)) interfaces

/-! ## Whole files -/

/-- Writing a class file checks its lengths, in the order of the file. -/
theorem checks_encode (c : ClassFile) : Checks c.encode c.lengths := by
  have hlengths : c.lengths = c.pool.lengths ++
      (tableLengths .interfaces (fun _ => []) c.interfaces ++
      (tableLengths .fields (fun f => attributesLengths f.attributes) c.fields ++
      (tableLengths .methods (fun m => attributesLengths m.attributes) c.methods ++
      attributesLengths c.attributes))) := by
    simp only [ClassFile.lengths, List.append_assoc]
  rw [hlengths]
  unfold ClassFile.encode
  refine (checks_pool c.pool).bind fun pool => ?_
  refine (checks_interfaces c.interfaces).bind fun interfaces => ?_
  refine (Checks.table rfl checks_field c.fields).bind fun fields => ?_
  refine (Checks.table rfl checks_method c.methods).bind fun methods => ?_
  exact (checks_attributes c.attributes).around fun attributes =>
    u32Bytes magic ++ u16Bytes c.minorVersion ++ u16Bytes c.majorVersion ++ pool ++
      u16Bytes c.access.bits ++ u16Bytes c.thisClass ++ u16Bytes c.superClass ++
      interfaces ++ fields ++ methods ++ attributes

/-- A class is written exactly if all its lengths fit, and otherwise the first that does not fit is
named. -/
theorem encode_refuses_first (c : ClassFile) :
    ((∃ bs, c.encode = .ok bs) ↔ c.Fits) ∧
      (¬ c.Fits → ∃ l, firstOversize c.lengths = some l ∧
        c.encode = .error (.tooMany l.what l.count)) := by
  refine ⟨encode_isOk_iff, fun hfits => ?_⟩
  have hchecks := checks_encode c
  unfold Checks at hchecks
  cases hfirst : firstOversize c.lengths with
  | none =>
    rw [hfirst] at hchecks
    exact absurd (encode_isOk_iff.1 hchecks) hfits
  | some l =>
    rw [hfirst] at hchecks
    exact ⟨l, rfl, hchecks⟩

/-- The class in `sealedBytes` with a text, a table of methods and tables of attributes that are all
too long. -/
def oversizeClass : ClassFile :=
  { sealedClass with
    pool := ⟨#[some (.long 7), none, some (.utf8 (List.replicate 65537 0x41))]⟩
    methods := List.replicate 65536 ⟨⟨1⟩, "m", "()V", 5, 6, List.replicate 65538 ⟨7, []⟩⟩ }

/-- Of three tables that are too long the one is named that is written first. -/
theorem oversizeClass_refused :
    ¬ oversizeClass.Fits ∧ oversizeClass.encode = .error (.tooMany .utf8Bytes 65537) := by
  have hfits : ¬ oversizeClass.Fits := by
    intro h
    have hmethods := h.methods
    rw [oversizeClass, List.length_replicate] at hmethods
    exact absurd hmethods (by decide)
  obtain ⟨l, hfirst, hencode⟩ := (encode_refuses_first oversizeClass).2 hfits
  have htext : firstOversize oversizeClass.lengths = some ⟨.utf8Bytes, 65537⟩ := by
    have hsize : (List.replicate 65537 (0x41 : UInt8)).length = 65537 := List.length_replicate
    simp [firstOversize, ClassFile.lengths, Pool.lengths, Pool.count, oversizeClass, Slot.lengths,
      Length.fits, Quantity.greatest, hsize, -List.reduceReplicate]
  obtain rfl : (⟨.utf8Bytes, 65537⟩ : Length) = l := Option.some.inj (htext.symm.trans hfirst)
  exact ⟨hfits, hencode⟩

end Unseal
