import Unseal.Proofs.ClassFile.PoolReadback
/-
  Round trips of class files

  The law that ties each reader to its writer is carried up to whole class
  files. A class file holds three things that are not written: the texts of its
  methods, its own name, and the place of its own entry. They are looked up
  while it is read, so a class is read back only if they are what is found in
  its pool and its attributes (`Method.TextsIn`, `ClassFile.Identified`).

  What is proved:
    1. `decode_ok_iff` — the bytes hold a class exactly if they are its writing,
       its slots are paired and its texts are those that are looked up.
    2. `encode_of_decode` — what was read is written as the bytes it was read from.
    3. `encode_isOk_iff` — a class is written exactly if all its lengths fit.
    4. `reads_back_iff_wellFormed` — a class is read back from its writing exactly
       if it is well-formed, and every class that was read is.
-/

namespace Unseal

open Reader

/-! ## Fields and methods -/

theorem field_ok_iff {f : Field} {c d : Cursor} :
    readField c = .ok (f, d) ↔ ∃ bs, f.encode = .ok bs ∧ Spans bs c d := by
  obtain ⟨access, nameIndex, descriptorIndex, attributes⟩ := f
  simp only [readField, bind_read_iff, u16_ok_iff, attributes_ok_iff, pure_read_iff, Field.encode,
    bind_ok_iff, pure_ok_iff, Field.mk.injEq]
  refine ⟨?_, ?_⟩
  · intro h
    obtain ⟨_, e₁, h₁, _, e₂, h₂, _, e₃, h₃, _, e₄, ⟨bs, hbs, h₄⟩, ⟨rfl, rfl, rfl, rfl⟩, rfl⟩ := h
    refine ⟨_, ⟨bs, hbs, rfl⟩, ?_⟩
    exact spans_append.2 ⟨e₃, spans_append.2 ⟨e₂, spans_append.2 ⟨e₁, h₁, h₂⟩, h₃⟩, h₄⟩
  · intro h
    obtain ⟨_, ⟨bs, hbs, rfl⟩, hs⟩ := h
    obtain ⟨e₃, hs, h₄⟩ := spans_append.1 hs
    obtain ⟨e₂, hs, h₃⟩ := spans_append.1 hs
    obtain ⟨e₁, h₁, h₂⟩ := spans_append.1 hs
    exact ⟨_, e₁, h₁, _, e₂, h₂, _, e₃, h₃, _, d, ⟨bs, hbs, h₄⟩, ⟨rfl, rfl, rfl, rfl⟩, rfl⟩

/-- The texts kept of a method are those that its indices lead to. -/
structure Method.TextsIn (m : Method) (pool : Pool) : Prop where
  name : pool.utf8 m.nameIndex = .ok m.name
  descriptor : pool.utf8 m.descriptorIndex = .ok m.descriptor

theorem method_ok_iff {pool : Pool} {m : Method} {c d : Cursor} :
    readMethod pool c = .ok (m, d) ↔
      m.TextsIn pool ∧ ∃ bs, m.encode = .ok bs ∧ Spans bs c d := by
  obtain ⟨⟨access⟩, name, descriptor, nameIndex, descriptorIndex, attributes⟩ := m
  simp only [readMethod, bind_read_iff, u16_ok_iff, attributes_ok_iff, lookup_read_iff,
    pure_read_iff, Method.encode, bind_ok_iff, pure_ok_iff, Method.mk.injEq, Access.mk.injEq]
  refine ⟨?_, ?_⟩
  · rintro ⟨_, e₁, h₁, _, e₂, h₂, _, e₃, h₃, _, e₄, ⟨bs, hbs, h₄⟩, _, _, ⟨hn, rfl⟩, _, _,
      ⟨hd, rfl⟩, ⟨rfl, rfl, rfl, rfl, rfl, rfl⟩, rfl⟩
    refine ⟨⟨hn, hd⟩, _, ⟨bs, hbs, rfl⟩, ?_⟩
    exact spans_append.2 ⟨e₃, spans_append.2 ⟨e₂, spans_append.2 ⟨e₁, h₁, h₂⟩, h₃⟩, h₄⟩
  · intro h
    obtain ⟨⟨hn, hd⟩, _, ⟨bs, hbs, rfl⟩, hs⟩ := h
    obtain ⟨e₃, hs, h₄⟩ := spans_append.1 hs
    obtain ⟨e₂, hs, h₃⟩ := spans_append.1 hs
    obtain ⟨e₁, h₁, h₂⟩ := spans_append.1 hs
    exact ⟨_, e₁, h₁, _, e₂, h₂, _, e₃, h₃, _, d, ⟨bs, hbs, h₄⟩, _, d, ⟨hn, rfl⟩, _, d,
      ⟨hd, rfl⟩, ⟨rfl, rfl, rfl, rfl, rfl, rfl⟩, rfl⟩

/-! ## Whole files -/

theorem interfaces_ok_iff {is : List UInt16} {c d : Cursor} :
    table u16 c = .ok (is, d) ↔
      ∃ bs, encodeTable .interfaces (fun i => .ok (u16Bytes i)) is = .ok bs ∧ Spans bs c d := by
  have law : ∀ a c d, u16 c = .ok (a, d) ↔
      True ∧ ∃ bs, (Except.ok (u16Bytes a) : Except ClassFault Bytes) = .ok bs ∧ Spans bs c d := by
    intro a c d
    simp [u16_ok_iff]
  rw [table_ok_iff law]
  exact and_iff_right fun _ _ => trivial

theorem fields_ok_iff {fs : List Field} {c d : Cursor} :
    table readField c = .ok (fs, d) ↔
      ∃ bs, encodeTable .fields Field.encode fs = .ok bs ∧ Spans bs c d := by
  have law : ∀ f c d, readField c = .ok (f, d) ↔
      True ∧ ∃ bs, f.encode = .ok bs ∧ Spans bs c d := by
    intro f c d
    rw [field_ok_iff, true_and]
  rw [table_ok_iff law]
  exact and_iff_right fun _ _ => trivial

theorem methods_ok_iff {pool : Pool} {ms : List Method} {c d : Cursor} :
    table (readMethod pool) c = .ok (ms, d) ↔
      (∀ m ∈ ms, m.TextsIn pool) ∧
        ∃ bs, encodeTable .methods Method.encode ms = .ok bs ∧ Spans bs c d :=
  table_ok_iff fun _ _ _ => method_ok_iff

theorem check_read_iff {α : Type} {p : Prop} [Decidable p] {fault : ClassFault} {r : Reader α}
    {k : PUnit → Reader α} {a : α} {c d : Cursor} :
    (if p then r else fail fault >>= k) c = .ok (a, d) ↔ p ∧ r c = .ok (a, d) := by
  by_cases h : p
  · simp [h]
  · simp only [h, if_false, false_and, iff_false, bind_read_iff]
    intro h'
    obtain ⟨_, _, hfail, _⟩ := h'
    exact fail_read _ _ _ hfail

theorem parts_ok_iff {p : ClassFile} (hpos : 0 < p.pool.slots.size) {c d : Cursor} :
    readParts c = .ok (p, d) ↔
      Paired p.pool.slots.toList ∧ (∀ m ∈ p.methods, m.TextsIn p.pool) ∧ p.name = "" ∧
        p.ownEntry = none ∧ ∃ bs, p.encode = .ok bs ∧ Spans bs c d := by
  obtain ⟨minor, major, pool, ⟨access⟩, this, super, interfaces, fields, methods, attributes, name,
    ownEntry⟩ := p
  simp only [readParts, bind_read_iff, u32_ok_iff, u16_ok_iff, check_read_iff, interfaces_ok_iff,
    fields_ok_iff, methods_ok_iff, attributes_ok_iff, pure_read_iff, ClassFile.encode, bind_ok_iff,
    pure_ok_iff, ClassFile.mk.injEq, Access.mk.injEq]
  refine ⟨?_, ?_⟩
  · rintro ⟨_, e₁, h₁, rfl, _, e₂, h₂, _, e₃, h₃, _, e₄, h₄, _, e₅, h₅, _, e₆, h₆, _, e₇, h₇,
      _, e₈, ⟨is, his, h₈⟩, _, e₉, ⟨fs, hfs, h₉⟩, _, f₁, ⟨htexts, ms, hms, g₁⟩, _, f₂,
      ⟨as, has, g₂⟩, ⟨rfl, rfl, rfl, rfl, rfl, rfl, rfl, rfl, rfl, rfl, rfl, rfl⟩, rfl⟩
    -- The spans of the parts are put together from the front.
    obtain ⟨hpair, ps, hps, h₄⟩ := (pool_ok_iff hpos).1 h₄
    refine ⟨hpair, htexts, rfl, rfl, _, ⟨ps, hps, is, his, fs, hfs, ms, hms, as, has, rfl⟩, ?_⟩
    have s₃ := spans_append.2 ⟨e₂, spans_append.2 ⟨e₁, h₁, h₂⟩, h₃⟩
    have s₅ := spans_append.2 ⟨e₄, spans_append.2 ⟨e₃, s₃, h₄⟩, h₅⟩
    have s₇ := spans_append.2 ⟨e₆, spans_append.2 ⟨e₅, s₅, h₆⟩, h₇⟩
    have s₉ := spans_append.2 ⟨e₈, spans_append.2 ⟨e₇, s₇, h₈⟩, h₉⟩
    exact spans_append.2 ⟨f₁, spans_append.2 ⟨e₉, s₉, g₁⟩, g₂⟩
  · intro h
    obtain ⟨hpair, htexts, rfl, rfl, _, ⟨ps, hps, is, his, fs, hfs, ms, hms, as, has, rfl⟩, hs⟩ := h
    -- The span of the whole is cut from its end.
    obtain ⟨f₁, hs, g₂⟩ := spans_append.1 hs
    obtain ⟨e₉, hs, g₁⟩ := spans_append.1 hs
    obtain ⟨e₈, hs, h₉⟩ := spans_append.1 hs
    obtain ⟨e₇, hs, h₈⟩ := spans_append.1 hs
    obtain ⟨e₆, hs, h₇⟩ := spans_append.1 hs
    obtain ⟨e₅, hs, h₆⟩ := spans_append.1 hs
    obtain ⟨e₄, hs, h₅⟩ := spans_append.1 hs
    obtain ⟨e₃, hs, h₄⟩ := spans_append.1 hs
    obtain ⟨e₂, hs, h₃⟩ := spans_append.1 hs
    obtain ⟨e₁, h₁, h₂⟩ := spans_append.1 hs
    have h₄ := (pool_ok_iff hpos).2 ⟨hpair, ps, hps, h₄⟩
    exact ⟨_, e₁, h₁, rfl, _, e₂, h₂, _, e₃, h₃, pool, e₄, h₄, _, e₅, h₅, _, e₆, h₆,
      _, e₇, h₇, _, e₈, ⟨is, his, h₈⟩, _, e₉, ⟨fs, hfs, h₉⟩, _, f₁, ⟨htexts, ms, hms, g₁⟩, _, d,
      ⟨as, has, g₂⟩, ⟨rfl, rfl, rfl, rfl, rfl, rfl, rfl, rfl, rfl, rfl, rfl, rfl⟩, rfl⟩

/-! ## What is looked up -/

/-- The name and the own entry kept of a class are those that are found in it. -/
def ClassFile.Identified (c : ClassFile) : Prop :=
  ∃ slashed, c.pool.className c.thisClass = .ok slashed ∧ c.name = Dotted.ofSlashed slashed ∧
    findOwnEntry c.pool slashed c.attributes = .ok c.ownEntry

/-- The class without its name and its own entry. -/
def ClassFile.parts (c : ClassFile) : ClassFile := { c with name := "", ownEntry := none }

theorem identify_ok_iff {p c : ClassFile} :
    p.identify = .ok c ↔ ∃ slashed, p.pool.className p.thisClass = .ok slashed ∧
      ∃ entry, findOwnEntry p.pool slashed p.attributes = .ok entry ∧
        { p with name := Dotted.ofSlashed slashed, ownEntry := entry } = c := by
  unfold ClassFile.identify
  cases p.pool.className p.thisClass with
  | error e => simp
  | ok slashed =>
    cases hfound : findOwnEntry p.pool slashed p.attributes <;> simp [hfound]

theorem slots_pos_of_className {pool : Pool} {index : UInt16} {name : String}
    (h : pool.className index = .ok name) : 0 < pool.slots.size := by
  rcases Nat.eq_zero_or_pos pool.slots.size with hzero | hpos
  · rw [Pool.className, Pool.get, Array.eq_empty_of_size_eq_zero hzero] at h
    by_cases hi : index = 0 <;> simp [hi] at h
  · exact hpos

/-- What is kept of a class beside its tables agrees with them, and its slots are paired. -/
structure ClassFile.Consistent (c : ClassFile) : Prop where
  paired : Paired c.pool.slots.toList
  texts : ∀ m ∈ c.methods, m.TextsIn c.pool
  identified : c.Identified

/-- The bytes hold a class exactly if they are its writing and it is consistent. -/
theorem decode_ok_iff {bs : Bytes} {c : ClassFile} :
    ClassFile.decode bs = .ok c ↔ c.Consistent ∧ c.encode = .ok bs := by
  refine ⟨?_, ?_⟩
  · intro h
    unfold ClassFile.decode at h
    split at h
    · cases h
    · rename_i p d hread
      split at h
      · rename_i hrest
        -- The name was found in the pool, so the pool is not empty.
        obtain ⟨slashed, hname, entry, hentry, rfl⟩ := identify_ok_iff.1 h
        obtain ⟨hpair, htexts, _, _, bs', hbs', hs⟩ :=
          (parts_ok_iff (slots_pos_of_className hname)).1 hread
        obtain rfl : bs = bs' := spans_file.1 ⟨d, List.isEmpty_iff.1 hrest, hs⟩
        exact ⟨⟨hpair, htexts, slashed, hname, rfl, hentry⟩, hbs'⟩
      · cases h
  · intro h
    obtain ⟨⟨hpair, htexts, slashed, hslashed, hname, hentry⟩, hbs⟩ := h
    obtain ⟨d, hd, hs⟩ := spans_file.2 (rfl : bs = bs)
    have hpos : 0 < c.parts.pool.slots.size := slots_pos_of_className hslashed
    have hread : readParts ⟨0, bs⟩ = .ok (c.parts, d) :=
      (parts_ok_iff hpos).2 ⟨hpair, htexts, rfl, rfl, bs, hbs, hs⟩
    rw [ClassFile.decode, hread]
    simp only [hd, List.isEmpty_nil, if_true]
    exact identify_ok_iff.2 ⟨slashed, hslashed, c.ownEntry, hentry, by rw [← hname]; rfl⟩

/-- What was read is written as the bytes that it was read from. -/
theorem encode_of_decode {bs : Bytes} {c : ClassFile} (h : ClassFile.decode bs = .ok c) :
    c.encode = .ok bs :=
  (decode_ok_iff.1 h).2

/-- A class file that is final in both places and has a public final method, a wide constant and
an entry about itself. -/
def sealedBytes : Bytes :=
  [0xCA, 0xFE, 0xBA, 0xBE, 0, 0, 0, 52, 0, 8,
   1, 0, 1, 0x41, 7, 0, 1, 5, 0, 0, 0, 0, 0, 0, 0, 7, 1, 0, 1, 0x6D, 1, 0, 3, 0x28, 0x29, 0x56,
   1, 0, 12, 0x49, 0x6E, 0x6E, 0x65, 0x72, 0x43, 0x6C, 0x61, 0x73, 0x73, 0x65, 0x73,
   0, 0x31, 0, 2, 0, 0, 0, 0, 0, 0, 0, 1, 0, 0x11, 0, 5, 0, 6, 0, 0,
   0, 1, 0, 7, 0, 0, 0, 10, 0, 1, 0, 2, 0, 0, 0, 1, 0, 0x19]

/-- The class in `sealedBytes`. -/
def sealedClass : ClassFile where
  minorVersion := 0
  majorVersion := 52
  pool := ⟨#[some (.utf8 [0x41]), some (.classEntry 1), some (.long 7), none, some (.utf8 [0x6D]),
    some (.utf8 [0x28, 0x29, 0x56]), some (.utf8 innerClassesName)]⟩
  access := ⟨0x31⟩
  thisClass := 2
  superClass := 0
  interfaces := []
  fields := []
  methods := [⟨⟨0x11⟩, "m", "()V", 5, 6, []⟩]
  attributes := [⟨7, [0, 1, 0, 2, 0, 0, 0, 1, 0, 0x19]⟩]
  name := "A"
  ownEntry := some ⟨0, 8⟩

theorem decode_sealedBytes : ClassFile.decode sealedBytes = .ok sealedClass := rfl

theorem encode_sealedClass :
    ClassFile.decode sealedBytes = .ok sealedClass ∧ sealedClass.encode = .ok sealedBytes :=
  ⟨decode_sealedBytes, encode_of_decode decode_sealedBytes⟩

/-! ## What can be written -/

/-- The tables of attributes in a class: of its fields, of its methods and its own. -/
def ClassFile.attributeTables (c : ClassFile) : List (List Attribute) :=
  c.fields.map Field.attributes ++ c.methods.map Method.attributes ++ [c.attributes]

/-- Every length fits the field that it is written in. -/
structure ClassFile.Fits (c : ClassFile) : Prop where
  slots : c.pool.slots.size ≤ 65534
  utf8 : ∀ text, some (.utf8 text) ∈ c.pool.slots.toList → text.length ≤ 65535
  interfaces : c.interfaces.length ≤ 65535
  fields : c.fields.length ≤ 65535
  methods : c.methods.length ≤ 65535
  attributes : ∀ table ∈ c.attributeTables, table.length ≤ 65535
  bodies : ∀ table ∈ c.attributeTables, ∀ a ∈ table, a.body.length ≤ 4294967295

theorem encodeAll_isOk_iff {α : Type} {item : α → Except ClassFault Bytes} {xs : List α} :
    (∃ bs, encodeAll item xs = .ok bs) ↔ ∀ x ∈ xs, ∃ bs, item x = .ok bs := by
  induction xs with
  | nil => simp
  | cons x xs ih =>
    rw [List.forall_mem_cons, ← ih]
    simp only [encodeAll_cons_ok_iff]
    refine ⟨?_, ?_⟩
    · intro h
      obtain ⟨_, as, has, cs, hcs, _⟩ := h
      exact ⟨⟨as, has⟩, cs, hcs⟩
    · intro h
      obtain ⟨⟨as, has⟩, cs, hcs⟩ := h
      exact ⟨_, as, has, cs, hcs, rfl⟩

theorem encodeTable_isOk_iff {α : Type} {what : Quantity} {item : α → Except ClassFault Bytes}
    {xs : List α} :
    (∃ bs, encodeTable what item xs = .ok bs) ↔
      xs.length ≤ 65535 ∧ ∀ x ∈ xs, ∃ bs, item x = .ok bs := by
  rw [← encodeAll_isOk_iff, ← Nat.lt_succ_iff]
  simp only [encodeTable_ok_iff]
  refine ⟨?_, ?_⟩
  · intro h
    obtain ⟨_, h, cs, hcs, _⟩ := h
    exact ⟨h, cs, hcs⟩
  · intro h
    obtain ⟨h, cs, hcs⟩ := h
    exact ⟨_, h, cs, hcs, rfl⟩

theorem encodeSlot_isOk_iff {s : Slot} :
    (∃ bs, encodeSlot s = .ok bs) ↔ ∀ text, s = some (.utf8 text) → text.length ≤ 65535 := by
  match s with
  | none => simp [encodeSlot]
  | some (.utf8 text) =>
    simp only [encodeSlot, Constant.encode, bind_ok_iff, pure_ok_iff, encodeLength_ok_iff]
    refine ⟨?_, ?_⟩
    · rintro ⟨_, _, ⟨h, _⟩, _⟩ _ htext
      cases htext
      exact Nat.lt_succ_iff.1 h
    · intro h
      exact ⟨_, _, ⟨Nat.lt_succ_of_le (h text rfl), rfl⟩, rfl⟩
  | some (.integer _) | some (.float _) | some (.long _) | some (.double _)
  | some (.classEntry _) | some (.string _) | some (.fieldRef _ _) | some (.methodRef _ _)
  | some (.interfaceMethodRef _ _) | some (.nameAndType _ _) | some (.methodHandle _ _)
  | some (.methodType _) | some (.dynamic _ _) | some (.invokeDynamic _ _)
  | some (.moduleEntry _) | some (.packageEntry _) => simp [encodeSlot, Constant.encode]

theorem pool_isOk_iff {pool : Pool} :
    (∃ bs, pool.encode = .ok bs) ↔ pool.slots.size ≤ 65534 ∧
      ∀ text, some (.utf8 text) ∈ pool.slots.toList → text.length ≤ 65535 := by
  have hslots : (∃ bs, encodeAll encodeSlot pool.slots.toList = .ok bs) ↔
      ∀ text, some (.utf8 text) ∈ pool.slots.toList → text.length ≤ 65535 := by
    simp only [encodeAll_isOk_iff, encodeSlot_isOk_iff]
    refine ⟨?_, ?_⟩
    · intro h text htext
      exact h _ htext text rfl
    · rintro h _ hs text rfl
      exact h text hs
  rw [← hslots]
  simp only [pool_encode_ok_iff]
  refine ⟨?_, ?_⟩
  · intro h
    obtain ⟨_, h, cs, hcs, _⟩ := h
    exact ⟨Nat.le_of_lt_succ (Nat.lt_of_succ_lt_succ h), cs, hcs⟩
  · intro h
    obtain ⟨h, cs, hcs⟩ := h
    exact ⟨_, Nat.succ_lt_succ (Nat.lt_succ_of_le h), cs, hcs, rfl⟩

theorem attribute_isOk_iff {a : Attribute} :
    (∃ bs, a.encode = .ok bs) ↔ a.body.length ≤ 4294967295 := by
  rw [← Nat.lt_succ_iff]
  simp only [Attribute.encode, bind_ok_iff, pure_ok_iff, encodeLength_ok_iff]
  refine ⟨?_, ?_⟩
  · intro h
    obtain ⟨_, _, ⟨h, _⟩, _⟩ := h
    exact h
  · intro h
    exact ⟨_, _, ⟨h, rfl⟩, rfl⟩

/-- A table of attributes is short enough, and so are the bodies in it. -/
def AttributesFit (table : List Attribute) : Prop :=
  table.length ≤ 65535 ∧ ∀ a ∈ table, a.body.length ≤ 4294967295

theorem attributes_isOk_iff {table : List Attribute} :
    (∃ bs, encodeAttributes table = .ok bs) ↔ AttributesFit table := by
  simp only [encodeAttributes, encodeTable_isOk_iff, attribute_isOk_iff, AttributesFit]

theorem field_isOk_iff {f : Field} : (∃ bs, f.encode = .ok bs) ↔ AttributesFit f.attributes := by
  rw [← attributes_isOk_iff]
  simp only [Field.encode, bind_ok_iff, pure_ok_iff]
  refine ⟨?_, ?_⟩
  · intro h
    obtain ⟨_, bs, hbs, _⟩ := h
    exact ⟨bs, hbs⟩
  · intro h
    obtain ⟨bs, hbs⟩ := h
    exact ⟨_, bs, hbs, rfl⟩

theorem method_isOk_iff {m : Method} : (∃ bs, m.encode = .ok bs) ↔ AttributesFit m.attributes := by
  rw [← attributes_isOk_iff]
  simp only [Method.encode, bind_ok_iff, pure_ok_iff]
  refine ⟨?_, ?_⟩
  · intro h
    obtain ⟨_, bs, hbs, _⟩ := h
    exact ⟨bs, hbs⟩
  · intro h
    obtain ⟨bs, hbs⟩ := h
    exact ⟨_, bs, hbs, rfl⟩

theorem encode_isOk_iff_parts {c : ClassFile} :
    (∃ bs, c.encode = .ok bs) ↔ (∃ bs, c.pool.encode = .ok bs) ∧
      (∃ bs, encodeTable .interfaces (fun i => .ok (u16Bytes i)) c.interfaces = .ok bs) ∧
      (∃ bs, encodeTable .fields Field.encode c.fields = .ok bs) ∧
      (∃ bs, encodeTable .methods Method.encode c.methods = .ok bs) ∧
      ∃ bs, encodeAttributes c.attributes = .ok bs := by
  simp only [ClassFile.encode, bind_ok_iff, pure_ok_iff]
  refine ⟨?_, ?_⟩
  · intro h
    obtain ⟨_, ps, hps, is, his, fs, hfs, ms, hms, as, has, _⟩ := h
    exact ⟨⟨ps, hps⟩, ⟨is, his⟩, ⟨fs, hfs⟩, ⟨ms, hms⟩, as, has⟩
  · intro h
    obtain ⟨⟨ps, hps⟩, ⟨is, his⟩, ⟨fs, hfs⟩, ⟨ms, hms⟩, as, has⟩ := h
    exact ⟨_, ps, hps, is, his, fs, hfs, ms, hms, as, has, rfl⟩

/-- A class is written exactly if all its lengths fit. -/
theorem encode_isOk_iff {c : ClassFile} : (∃ bs, c.encode = .ok bs) ↔ c.Fits := by
  simp only [encode_isOk_iff_parts, pool_isOk_iff, encodeTable_isOk_iff, field_isOk_iff,
    method_isOk_iff, attributes_isOk_iff]
  have htables : (∀ table ∈ c.attributeTables, AttributesFit table) ↔
      (∀ f ∈ c.fields, AttributesFit f.attributes) ∧
        (∀ m ∈ c.methods, AttributesFit m.attributes) ∧ AttributesFit c.attributes := by
    simp [ClassFile.attributeTables, or_imp, forall_and]
  refine ⟨?_, ?_⟩
  · intro h
    obtain ⟨⟨hslots, htexts⟩, ⟨his, _⟩, ⟨hfs, hfields⟩, ⟨hms, hmethods⟩, has⟩ := h
    have hall := htables.2 ⟨hfields, hmethods, has⟩
    exact ⟨hslots, htexts, his, hfs, hms, fun t ht => (hall t ht).1, fun t ht => (hall t ht).2⟩
  · intro h
    obtain ⟨hfields, hmethods, has⟩ :=
      htables.1 fun t ht => ⟨h.attributes t ht, h.bodies t ht⟩
    exact ⟨⟨h.slots, h.utf8⟩, ⟨h.interfaces, fun i _ => ⟨u16Bytes i, rfl⟩⟩, ⟨h.fields, hfields⟩,
      ⟨h.methods, hmethods⟩, has⟩

/-- Every length fits, and what is kept of the class beside its tables agrees with them. -/
structure ClassFile.WellFormed (c : ClassFile) : Prop extends c.Fits, c.Consistent

/-- A class is read back from its writing exactly if it is well-formed, and every class that was
read is. -/
theorem reads_back_iff_wellFormed (c : ClassFile) :
    ((∃ bs, c.encode = .ok bs ∧ ClassFile.decode bs = .ok c) ↔ c.WellFormed) ∧
      ∀ bs, ClassFile.decode bs = .ok c → c.WellFormed := by
  have hforth : ∀ bs, ClassFile.decode bs = .ok c → c.WellFormed := by
    intro bs h
    obtain ⟨hcons, hbs⟩ := decode_ok_iff.1 h
    exact ⟨encode_isOk_iff.1 ⟨bs, hbs⟩, hcons⟩
  refine ⟨⟨?_, fun h => ?_⟩, hforth⟩
  · intro h'
    obtain ⟨bs, _, h⟩ := h'
    exact hforth bs h
  · obtain ⟨bs, hbs⟩ := encode_isOk_iff.2 h.toFits
    exact ⟨bs, hbs, decode_ok_iff.2 ⟨h.toConsistent, hbs⟩⟩

/-- The class in `sealedBytes` is well-formed, and with an empty slot at the end of its pool it is
no longer read back. -/
theorem sealedClass_reads_back :
    (∃ bs, sealedClass.encode = .ok bs ∧ ClassFile.decode bs = .ok sealedClass) ∧
      ¬ ∃ bs, ({ sealedClass with pool := ⟨sealedClass.pool.slots.push none⟩ }).encode = .ok bs ∧
        ClassFile.decode bs = .ok { sealedClass with pool := ⟨sealedClass.pool.slots.push none⟩ } := by
  refine ⟨?_, ?_⟩
  · have h := (reads_back_iff_wellFormed sealedClass).2 sealedBytes decode_sealedBytes
    exact (reads_back_iff_wellFormed sealedClass).1.2 h
  · rw [(reads_back_iff_wellFormed _).1]
    intro h
    obtain ⟨j, k, hj, hk, hw⟩ := h.paired.preceded 7 rfl
    obtain rfl : 6 = j := Nat.succ.inj hj
    cases hk
    cases hw

end Unseal
