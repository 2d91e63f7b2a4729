import Unseal.ClassFile.Encode
import Unseal.Proofs.Results
/-
  Readback — what a reader takes is what a writer would have written

  Readers and writers of class files go through the same parts in the same
  order, one from bytes and one to bytes. Each reader is tied to its writer by
  one law: the reader gives a value between two cursors exactly if the bytes
  between them are the writing of that value. The law of a reader made of parts
  follows from the laws of its parts, since bytes between cursors can be cut at
  every cursor between them (`spans_append`).

  What is proved:
    1. `bytes_ok_iff`, `number_ok_iff` — the law for runs of bytes and for numbers.
    2. `u8_ok_iff` to `u64_ok_iff` — the law for words of fixed width.
    3. `table_ok_iff` — the law for tables, whatever their items are.
    4. `attributes_ok_iff` — the law for tables of attributes.
-/

namespace Unseal

/-- The bytes lie between the first cursor and the second. -/
def Spans (bs : Bytes) (c d : Cursor) : Prop :=
  c.rest = bs ++ d.rest ∧ d.offset = c.offset + bs.length

@[simp] theorem spans_nil {c d : Cursor} : Spans [] c d ↔ d = c := by
  obtain ⟨i, xs⟩ := c
  obtain ⟨j, ys⟩ := d
  simp only [Spans, List.nil_append, List.length_nil, Nat.add_zero, Cursor.mk.injEq]
  exact ⟨fun h => ⟨h.2, h.1.symm⟩, fun h => ⟨h.2.symm, h.1⟩⟩

theorem spans_append {as bs : Bytes} {c d : Cursor} :
    Spans (as ++ bs) c d ↔ ∃ e, Spans as c e ∧ Spans bs e d := by
  refine ⟨?_, ?_⟩
  · intro h
    obtain ⟨hrest, hoff⟩ := h
    refine ⟨⟨c.offset + as.length, bs ++ d.rest⟩, ⟨?_, rfl⟩, rfl, ?_⟩
    · rw [hrest, List.append_assoc]
    · rw [hoff, List.length_append, Nat.add_assoc]
  · intro h
    obtain ⟨e, ⟨hc, he⟩, hd, hoff⟩ := h
    refine ⟨?_, ?_⟩
    · rw [hc, hd, List.append_assoc]
    · rw [hoff, he, List.length_append, Nat.add_assoc]

theorem spans_cons {b : UInt8} {bs : Bytes} {c d : Cursor} :
    Spans (b :: bs) c d ↔ ∃ e, Spans [b] c e ∧ Spans bs e d := by
  rw [← spans_append, List.singleton_append]

theorem spans_file {bs cs : Bytes} : (∃ d, d.rest = [] ∧ Spans bs ⟨0, cs⟩ d) ↔ cs = bs := by
  refine ⟨?_, ?_⟩
  · intro h
    obtain ⟨d, hd, hrest, _⟩ := h
    rw [hd, List.append_nil] at hrest
    exact hrest
  · intro h
    subst h
    exact ⟨⟨cs.length, []⟩, rfl, by simp, by simp⟩

/-! ## Steps of readers and writers -/

namespace Reader

theorem bind_read_iff {α β : Type} {r : Reader α} {k : α → Reader β} {c d : Cursor} {b : β} :
    (r >>= k) c = .ok (b, d) ↔ ∃ a e, r c = .ok (a, e) ∧ k a e = .ok (b, d) := by
  show ((r c) >>= fun p : α × Cursor => k p.1 p.2) = .ok (b, d) ↔ _
  rw [bind_ok_iff]
  exact Prod.exists

theorem pure_read_iff {α : Type} {a b : α} {c d : Cursor} :
    (pure a : Reader α) c = .ok (b, d) ↔ a = b ∧ d = c := by
  show Except.ok (a, c) = .ok (b, d) ↔ _
  rw [Except.ok.injEq, Prod.mk.injEq]
  exact and_congr_right fun _ => eq_comm

theorem lookup_read_iff {α : Type} {found : Except ClassFault α} {a : α} {c d : Cursor} :
    lookup found c = .ok (a, d) ↔ found = .ok a ∧ d = c := by
  cases found with
  | error e => simp [lookup]
  | ok b => simp [lookup, eq_comm]

theorem fail_read {α : Type} (fault : ClassFault) (c : Cursor) (p : α × Cursor) :
    (fail fault : Reader α) c ≠ .ok p := by
  intro h
  cases h

/-! ## Words -/

theorem bytes_ok_iff {n : Nat} {bs : Bytes} {c d : Cursor} :
    bytes n c = .ok (bs, d) ↔ bs.length = n ∧ Spans bs c d := by
  obtain ⟨i, xs⟩ := c
  obtain ⟨j, ys⟩ := d
  rw [bytes_eq]
  refine ⟨?_, ?_⟩
  · intro h
    split at h
    · cases h
    · rename_i hlen
      simp only [Except.ok.injEq, Prod.mk.injEq, Cursor.mk.injEq] at h hlen
      obtain ⟨rfl, rfl, rfl⟩ := h
      have htake : (xs.take n).length = n := by rw [List.length_take]; omega
      exact ⟨htake, (List.take_append_drop n xs).symm, by rw [htake]⟩
  · intro h
    obtain ⟨rfl, hrest, hoff⟩ := h
    simp only at hrest hoff
    subst hrest hoff
    rw [if_neg (by simp), List.take_left, List.drop_left]

theorem number_ok_iff {width n : Nat} {c d : Cursor} :
    number width c = .ok (n, d) ↔ n < capacity width ∧ Spans (beBytes width n) c d := by
  rw [number, bind_read_iff]
  simp only [bytes_ok_iff, pure_read_iff]
  refine ⟨?_, ?_⟩
  · intro h
    obtain ⟨bs, e, ⟨rfl, hs⟩, rfl, rfl⟩ := h
    exact ⟨beValue_lt bs, by rw [beBytes_beValue]; exact hs⟩
  · intro h
    obtain ⟨hn, hs⟩ := h
    refine ⟨beBytes width n, d, ⟨length_beBytes width n, hs⟩, ?_, rfl⟩
    rw [beValue_beBytes, Nat.mod_eq_of_lt hn]

theorem word_ok_iff (width : Nat) {ω : Type} {ofNat : Nat → ω} {toNat : ω → Nat}
    (hlt : ∀ v, toNat v < capacity width) (hto : ∀ n, n < capacity width → toNat (ofNat n) = n)
    (hof : ∀ v, ofNat (toNat v) = v) {v : ω} {c d : Cursor} :
    (do return ofNat (← number width) : Reader ω) c = .ok (v, d) ↔
      Spans (beBytes width (toNat v)) c d := by
  rw [bind_read_iff]
  simp only [number_ok_iff, pure_read_iff]
  refine ⟨?_, ?_⟩
  · intro h
    obtain ⟨n, e, ⟨hn, hs⟩, rfl, rfl⟩ := h
    rwa [hto n hn]
  · intro hs
    exact ⟨toNat v, d, ⟨hlt v, hs⟩, hof v, rfl⟩

theorem u8_ok_iff {v : UInt8} {c d : Cursor} : u8 c = .ok (v, d) ↔ Spans (u8Bytes v) c d := by
  have hbytes : beBytes 1 v.toNat = u8Bytes v := by simp [beBytes, u8Bytes, capacity]
  rw [← hbytes]
  exact word_ok_iff 1 UInt8.toNat_lt (fun _ h => UInt8.toNat_ofNat_of_lt' h)
    fun _ => UInt8.ofNat_toNat

theorem u16_ok_iff {v : UInt16} {c d : Cursor} : u16 c = .ok (v, d) ↔ Spans (u16Bytes v) c d :=
  word_ok_iff 2 UInt16.toNat_lt (fun _ h => UInt16.toNat_ofNat_of_lt' h)
    fun _ => UInt16.ofNat_toNat

theorem u32_ok_iff {v : UInt32} {c d : Cursor} : u32 c = .ok (v, d) ↔ Spans (u32Bytes v) c d :=
  word_ok_iff 4 UInt32.toNat_lt (fun _ h => UInt32.toNat_ofNat_of_lt' h)
    fun _ => UInt32.ofNat_toNat

theorem u64_ok_iff {v : UInt64} {c d : Cursor} : u64 c = .ok (v, d) ↔ Spans (u64Bytes v) c d :=
  word_ok_iff 8 UInt64.toNat_lt (fun _ h => UInt64.toNat_ofNat_of_lt' h)
    fun _ => UInt64.ofNat_toNat

end Reader

/-! ## Tables -/

theorem encodeLength_ok_iff {width count : Nat} {what : Quantity} {bs : Bytes} :
    encodeLength width what count = .ok bs ↔
      count < capacity width ∧ bs = beBytes width count := by
  unfold encodeLength
  split
  · rename_i h
    rw [Except.ok.injEq]
    exact ⟨fun hb => ⟨h, hb.symm⟩, fun hb => hb.2.symm⟩
  · rename_i h
    refine ⟨?_, ?_⟩
    · intro hb; cases hb
    · intro hb; exact absurd hb.1 h

section
variable {α : Type} {item : α → Except ClassFault Bytes}

theorem encodeAllFrom_eq (done : Bytes) (xs : List α) :
    encodeAllFrom item done xs = (encodeAll item xs).map (done.reverse ++ ·) := by
  induction xs generalizing done with
  | nil => simp [encodeAll, encodeAllFrom, Except.map]
  | cons x xs ih =>
    rw [encodeAll, encodeAllFrom, encodeAllFrom]
    cases item x with
    | error e => rfl
    | ok bs =>
      simp only
      rw [ih, ih (bs.reverseAux [])]
      cases encodeAll item xs with
      | error e => rfl
      | ok rest => simp [Except.map, List.reverseAux_eq]

@[simp] theorem encodeAll_nil : encodeAll item [] = .ok [] := rfl

theorem encodeAll_cons (x : α) (xs : List α) :
    encodeAll item (x :: xs) = do return (← item x) ++ (← encodeAll item xs) := by
  rw [encodeAll, encodeAllFrom]
  cases item x with
  | error e => rfl
  | ok bs =>
    simp only
    rw [encodeAllFrom_eq]
    cases encodeAll item xs with
    | error e => rfl
    | ok rest =>
      rw [List.reverseAux_eq, List.append_nil, List.reverse_reverse]
      rfl

theorem encodeAll_cons_ok_iff {x : α} {xs : List α} {bs : Bytes} :
    encodeAll item (x :: xs) = .ok bs ↔
      ∃ as, item x = .ok as ∧ ∃ cs, encodeAll item xs = .ok cs ∧ as ++ cs = bs := by
  simp only [encodeAll_cons, bind_ok_iff, pure_ok_iff]

theorem encodeTable_ok_iff {what : Quantity} {xs : List α} {bs : Bytes} :
    encodeTable what item xs = .ok bs ↔
      xs.length < capacity 2 ∧ ∃ cs, encodeAll item xs = .ok cs ∧ beBytes 2 xs.length ++ cs = bs := by
  simp only [encodeTable, bind_ok_iff, pure_ok_iff, encodeLength_ok_iff]
  refine ⟨?_, ?_⟩
  · intro h
    obtain ⟨_, ⟨h, rfl⟩, h'⟩ := h
    exact ⟨h, h'⟩
  · intro h
    obtain ⟨h, h'⟩ := h
    exact ⟨_, ⟨h, rfl⟩, h'⟩

end

namespace Reader

section
variable {α : Type} {ok : α → Prop} {read : Reader α} {write : α → Except ClassFault Bytes}

theorem manyFrom_ok_iff
    (law : ∀ a c d, read c = .ok (a, d) ↔ ok a ∧ ∃ bs, write a = .ok bs ∧ Spans bs c d)
    {n : Nat} {done xs : List α} {c d : Cursor} :
    manyFrom read n done c = .ok (xs, d) ↔
      ∃ new, xs = done.reverse ++ new ∧ new.length = n ∧ (∀ a ∈ new, ok a) ∧
        ∃ bs, encodeAll write new = .ok bs ∧ Spans bs c d := by
  induction n generalizing done c with
  | zero =>
    simp only [manyFrom, Except.ok.injEq, Prod.mk.injEq, List.length_eq_zero_iff]
    refine ⟨?_, ?_⟩
    · intro h
      obtain ⟨rfl, rfl⟩ := h
      exact ⟨[], by simp, rfl, by simp, [], rfl, spans_nil.2 rfl⟩
    · intro h
      obtain ⟨_, rfl, rfl, _, _, hbs, hs⟩ := h
      cases hbs
      exact ⟨by simp, (spans_nil.1 hs).symm⟩
  | succ n ih =>
    rw [manyFrom]
    refine ⟨?_, ?_⟩
    · intro h
      split at h
      · cases h
      · rename_i a e ha
        obtain ⟨hok, as, has, hs⟩ := (law _ _ _).1 ha
        obtain ⟨new, rfl, rfl, hall, bs, hbs, ht⟩ := ih.1 h
        refine ⟨a :: new, by simp, rfl, List.forall_mem_cons.2 ⟨hok, hall⟩, as ++ bs, ?_, ?_⟩
        · exact encodeAll_cons_ok_iff.2 ⟨as, has, bs, hbs, rfl⟩
        · exact spans_append.2 ⟨e, hs, ht⟩
    · intro h
      -- What is read in this step is the first of the new items.
      obtain ⟨new, rfl, hlen, hall, bs, hbs, hs⟩ := h
      obtain ⟨a, new, rfl⟩ := List.exists_cons_of_length_eq_add_one hlen
      obtain ⟨as, has, cs, hcs, rfl⟩ := encodeAll_cons_ok_iff.1 hbs
      obtain ⟨e, hs, ht⟩ := spans_append.1 hs
      obtain ⟨hok, hall⟩ := List.forall_mem_cons.1 hall
      rw [(law a c e).2 ⟨hok, as, has, hs⟩]
      exact ih.2 ⟨new, by simp, by simpa using hlen, hall, cs, hcs, ht⟩

/-- The law of a table from the law of its items. -/
theorem table_ok_iff {what : Quantity}
    (law : ∀ a c d, read c = .ok (a, d) ↔ ok a ∧ ∃ bs, write a = .ok bs ∧ Spans bs c d)
    {xs : List α} {c d : Cursor} :
    table read c = .ok (xs, d) ↔
      (∀ a ∈ xs, ok a) ∧ ∃ bs, encodeTable what write xs = .ok bs ∧ Spans bs c d := by
  simp only [table, bind_read_iff, u16_ok_iff, many, manyFrom_ok_iff law, encodeTable_ok_iff]
  refine ⟨?_, ?_⟩
  · intro h
    obtain ⟨count, e, hs, new, rfl, hlen, hall, bs, hbs, ht⟩ := h
    refine ⟨hall, _, ⟨?_, bs, hbs, rfl⟩, spans_append.2 ⟨e, ?_, ht⟩⟩
    · rw [hlen]
      exact count.toNat_lt
    · rwa [hlen]
  · intro h
    obtain ⟨hall, _, ⟨hlen, bs, hbs, rfl⟩, hs⟩ := h
    obtain ⟨e, hs, ht⟩ := spans_append.1 hs
    -- A count that can be written is the number of its word.
    have hcount : (UInt16.ofNat xs.length).toNat = xs.length := UInt16.toNat_ofNat_of_lt' hlen
    exact ⟨UInt16.ofNat xs.length, e, by rwa [u16Bytes, hcount], xs, by simp, hcount.symm, hall,
      bs, hbs, ht⟩

end
end Reader

/-! ## Attributes -/

theorem attribute_ok_iff {a : Attribute} {c d : Cursor} :
    readAttribute c = .ok (a, d) ↔ ∃ bs, a.encode = .ok bs ∧ Spans bs c d := by
  obtain ⟨nameIndex, body⟩ := a
  simp only [readAttribute, Reader.bind_read_iff, Reader.u16_ok_iff, Reader.u32_ok_iff,
    Reader.bytes_ok_iff, Reader.pure_read_iff, Attribute.encode, bind_ok_iff, pure_ok_iff,
    encodeLength_ok_iff, Attribute.mk.injEq]
  refine ⟨?_, ?_⟩
  · intro h
    obtain ⟨_, e₁, h₁, len, e₂, h₂, _, e₃, ⟨hlen, h₃⟩, ⟨rfl, rfl⟩, rfl⟩ := h
    refine ⟨_, ⟨_, ⟨?_, rfl⟩, rfl⟩, spans_append.2 ⟨e₂, spans_append.2 ⟨e₁, h₁, ?_⟩, h₃⟩⟩
    · rw [hlen]
      exact len.toNat_lt
    · rwa [hlen]
  · intro h
    obtain ⟨_, ⟨_, ⟨hlen, rfl⟩, rfl⟩, hs⟩ := h
    obtain ⟨e₂, hs, h₃⟩ := spans_append.1 hs
    obtain ⟨e₁, h₁, h₂⟩ := spans_append.1 hs
    have hword : (UInt32.ofNat body.length).toNat = body.length := UInt32.toNat_ofNat_of_lt' hlen
    exact ⟨nameIndex, e₁, h₁, UInt32.ofNat body.length, e₂, by rwa [u32Bytes, hword], body, d,
      ⟨hword.symm, h₃⟩, ⟨rfl, rfl⟩, rfl⟩

theorem attributes_ok_iff {as : List Attribute} {c d : Cursor} :
    readAttributes c = .ok (as, d) ↔ ∃ bs, encodeAttributes as = .ok bs ∧ Spans bs c d := by
  have law : ∀ a c d, readAttribute c = .ok (a, d) ↔
      True ∧ ∃ bs, a.encode = .ok bs ∧ Spans bs c d := fun a c d => by
    rw [attribute_ok_iff, true_and]
  rw [readAttributes, Reader.table_ok_iff law, encodeAttributes]
  exact and_iff_right fun _ _ => trivial

end Unseal
