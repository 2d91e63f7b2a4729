import Unseal.Proofs.ClassFile.Readback
/-
  Readback of the constant pool

  Constants are read by their tags and written with them. A wide constant takes
  two slots and is written once: the writer passes over every empty slot, and
  the reader puts one behind every wide constant. So a pool is read back only
  if its empty slots stand where the reader puts them (`Paired`), and of
  two counts, zero and one, the writer knows one: a pool without slots can have
  been read from either.

  What is proved:
    1. `constant_ok_iff` — the law for constants of all kinds.
    2. `readSlots_ok_iff` — the law for slots, which come out as reading fills them.
    3. `filled_iff_paired` — the same said by slot numbers: behind every wide
       constant there is an empty slot, and there only.
    4. `pool_ok_iff` — the law for pools that have a slot.
-/

namespace Unseal

open Reader

/-! ## Constants -/

section
variable {α β : Type} {r : Reader α} {s : Reader β} {c d : Cursor} {k : Constant}

theorem read_one_iff {mk : α → Constant} :
    (do return mk (← r) : Reader Constant) c = .ok (k, d) ↔ ∃ a, mk a = k ∧ r c = .ok (a, d) := by
  simp only [bind_read_iff, pure_read_iff]
  refine ⟨?_, ?_⟩
  · intro h
    obtain ⟨a, e, h, hk, rfl⟩ := h
    exact ⟨a, hk, h⟩
  · intro h
    obtain ⟨a, hk, h⟩ := h
    exact ⟨a, d, h, hk, rfl⟩

theorem read_two_iff {mk : α → β → Constant} :
    (do return mk (← r) (← s) : Reader Constant) c = .ok (k, d) ↔
      ∃ a b, mk a b = k ∧ ∃ e, r c = .ok (a, e) ∧ s e = .ok (b, d) := by
  simp only [bind_read_iff, pure_read_iff]
  refine ⟨?_, ?_⟩
  · intro h
    obtain ⟨a, e, h, b, f, h', hk, rfl⟩ := h
    exact ⟨a, b, hk, e, h, h'⟩
  · intro h
    obtain ⟨a, b, hk, e, h, h'⟩ := h
    exact ⟨a, e, h, b, d, h', hk, rfl⟩

end

theorem text_ok_iff {k : Constant} {c d : Cursor} :
    (do return .utf8 (← bytes (← u16).toNat) : Reader Constant) c = .ok (k, d) ↔
      ∃ text, .utf8 text = k ∧ text.length < capacity 2 ∧
        Spans (beBytes 2 text.length ++ text) c d := by
  simp only [bind_read_iff, pure_read_iff, bytes_ok_iff, u16_ok_iff]
  refine ⟨?_, ?_⟩
  · intro h
    obtain ⟨len, e, hs, text, f, ⟨hlen, ht⟩, hk, rfl⟩ := h
    refine ⟨text, hk, ?_, spans_append.2 ⟨e, ?_, ht⟩⟩
    · rw [hlen]
      exact len.toNat_lt
    · rwa [hlen]
  · intro h
    obtain ⟨text, hk, hlen, hs⟩ := h
    obtain ⟨e, hs, ht⟩ := spans_append.1 hs
    have hword : (UInt16.ofNat text.length).toNat = text.length := UInt16.toNat_ofNat_of_lt' hlen
    exact ⟨UInt16.ofNat text.length, e, by rwa [u16Bytes, hword], text, d, ⟨hword.symm, ht⟩, hk, rfl⟩

theorem constant_of_read {index : Nat} {tag : UInt8} {k : Constant} {c d e : Cursor}
    (hs : Spans (u8Bytes tag) c e) (h : readTagged index tag e = .ok (k, d)) :
    ∃ bs, k.encode = .ok bs ∧ Spans bs c d := by
  unfold readTagged at h
  split at h
  case h_1 =>
    obtain ⟨text, rfl, hlen, ht⟩ := text_ok_iff.1 h
    have henc : Constant.encode (.utf8 text) = .ok (1 :: (beBytes 2 text.length ++ text)) := by
      simp only [Constant.encode, bind_ok_iff, pure_ok_iff, encodeLength_ok_iff]
      exact ⟨_, ⟨hlen, rfl⟩, rfl⟩
    exact ⟨_, henc, spans_cons.2 ⟨e, hs, ht⟩⟩
  case h_18 => exact absurd h (fail_read _ _ _)
  all_goals
    simp only [read_one_iff, read_two_iff, u8_ok_iff, u16_ok_iff, u32_ok_iff, u64_ok_iff] at h
    first
    | obtain ⟨a, rfl, ht⟩ := h
      exact ⟨_, rfl, spans_cons.2 ⟨e, hs, ht⟩⟩
    | obtain ⟨a, b, rfl, ht⟩ := h
      exact ⟨_, rfl, spans_cons.2 ⟨e, hs, spans_append.2 ht⟩⟩

/-- A constant is read from the bytes that it is written in. -/
theorem constant_ok_iff {index : Nat} {k : Constant} {c d : Cursor} :
    readConstant index c = .ok (k, d) ↔ ∃ bs, k.encode = .ok bs ∧ Spans bs c d := by
  rw [readConstant, bind_read_iff]
  simp only [u8_ok_iff]
  refine ⟨?_, ?_⟩
  · intro h
    obtain ⟨tag, e, hs, h⟩ := h
    exact constant_of_read hs h
  · intro h
    obtain ⟨bs, hbs, hs⟩ := h
    cases k with
    | utf8 text =>
      simp only [Constant.encode, bind_ok_iff, pure_ok_iff, encodeLength_ok_iff] at hbs
      obtain ⟨_, ⟨hlen, rfl⟩, rfl⟩ := hbs
      obtain ⟨e, hs, ht⟩ := spans_cons.1 hs
      exact ⟨1, e, hs, text_ok_iff.2 ⟨text, rfl, hlen, ht⟩⟩
    | integer _ | float _ | long _ | double _ | classEntry _ | string _ | methodType _
    | moduleEntry _ | packageEntry _ =>
      cases hbs
      obtain ⟨e, hs, ht⟩ := spans_cons.1 hs
      refine ⟨_, e, hs, read_one_iff.2 ⟨_, rfl, ?_⟩⟩
      simpa only [u16_ok_iff, u32_ok_iff, u64_ok_iff] using ht
    | fieldRef _ _ | methodRef _ _ | interfaceMethodRef _ _ | nameAndType _ _ | methodHandle _ _
    | dynamic _ _ | invokeDynamic _ _ =>
      cases hbs
      obtain ⟨e, hs, ht⟩ := spans_cons.1 hs
      refine ⟨_, e, hs, read_two_iff.2 ⟨_, _, rfl, ?_⟩⟩
      simpa only [u8_ok_iff, u16_ok_iff] using spans_append.1 ht

/-! ## Slots -/

/-- The slots as they are filled by reading: behind a wide constant there is an empty one, and
nowhere else. -/
def Filled : List Slot → Prop
  | [] => True
  | none :: _ => False
  | [some k] => k.isWide = false
  | some k :: s :: rest => if k.isWide then s = none ∧ Filled rest else Filled (s :: rest)

/-- Slots are written from these bytes, if they are written from any. -/
def SlotsSpan (new : List Slot) (c d : Cursor) : Prop :=
  ∃ bs, encodeAll encodeSlot new = .ok bs ∧ Spans bs c d

theorem slotsSpan_nil {c d : Cursor} : SlotsSpan [] c d ↔ d = c := by
  simp [SlotsSpan]

theorem slotsSpan_none {rest : List Slot} {c d : Cursor} :
    SlotsSpan (none :: rest) c d ↔ SlotsSpan rest c d := by
  simp [SlotsSpan, encodeAll_cons_ok_iff, encodeSlot]

theorem slotsSpan_some (index : Nat) {k : Constant} {rest : List Slot} {c d : Cursor} :
    SlotsSpan (some k :: rest) c d ↔
      ∃ e, readConstant index c = .ok (k, e) ∧ SlotsSpan rest e d := by
  simp only [SlotsSpan, encodeAll_cons_ok_iff, encodeSlot, constant_ok_iff]
  refine ⟨?_, ?_⟩
  · intro h
    obtain ⟨_, ⟨as, has, cs, hcs, rfl⟩, hs⟩ := h
    obtain ⟨e, hs, ht⟩ := spans_append.1 hs
    exact ⟨e, ⟨as, has, hs⟩, cs, hcs, ht⟩
  · intro h
    obtain ⟨e, ⟨as, has, hs⟩, cs, hcs, ht⟩ := h
    exact ⟨as ++ cs, ⟨as, has, cs, hcs, rfl⟩, spans_append.2 ⟨e, hs, ht⟩⟩

theorem readSlots_one {index : Nat} {done slots : List Slot} {c d : Cursor} :
    readSlots 1 index done c = .ok (slots, d) ↔
      ∃ k, readConstant index c = .ok (k, d) ∧ k.isWide = false ∧
        slots = done.reverse ++ [some k] := by
  rw [readSlots]
  cases h : readConstant index c with
  | error e => simp
  | ok p =>
    obtain ⟨k, e⟩ := p
    simp only [Except.ok.injEq, Prod.mk.injEq]
    refine ⟨?_, ?_⟩
    · intro hr
      cases hw : k.isWide with
      | true => simp [hw] at hr
      | false =>
        obtain ⟨rfl, rfl⟩ : (some k :: done).reverse = slots ∧ e = d := by simpa [hw] using hr
        exact ⟨k, ⟨rfl, rfl⟩, hw, by simp⟩
    · intro h'
      obtain ⟨_, ⟨rfl, rfl⟩, hw, rfl⟩ := h'
      simp [hw]

theorem readSlots_more {left index : Nat} {done slots : List Slot} {c d : Cursor} :
    readSlots (left + 2) index done c = .ok (slots, d) ↔
      ∃ k e, readConstant index c = .ok (k, e) ∧
        if k.isWide then readSlots left (index + 2) (none :: some k :: done) e = .ok (slots, d)
        else readSlots (left + 1) (index + 1) (some k :: done) e = .ok (slots, d) := by
  rw [readSlots]
  cases h : readConstant index c with
  | error e => simp
  | ok p =>
    obtain ⟨k, e⟩ := p
    simp only [Except.ok.injEq, Prod.mk.injEq]
    refine ⟨?_, ?_⟩
    · intro hr
      refine ⟨k, e, ⟨rfl, rfl⟩, ?_⟩
      cases hw : k.isWide <;> simpa [hw] using hr
    · intro h'
      obtain ⟨_, _, ⟨rfl, rfl⟩, hr⟩ := h'
      cases hw : k.isWide <;> simpa [hw] using hr

/-- Filling slots, by induction on the slots left; a wide constant fills two. -/
theorem readSlots_ok_iff : ∀ {left index : Nat} {done slots : List Slot} {c d : Cursor},
    readSlots left index done c = .ok (slots, d) ↔
      ∃ new, slots = done.reverse ++ new ∧ new.length = left ∧ Filled new ∧ SlotsSpan new c d
  | 0, index, done, slots, c, d => by
    simp only [readSlots, Except.ok.injEq, Prod.mk.injEq, List.length_eq_zero_iff]
    refine ⟨?_, ?_⟩
    · intro h
      obtain ⟨rfl, rfl⟩ := h
      exact ⟨[], by simp, rfl, trivial, slotsSpan_nil.2 rfl⟩
    · intro h'
      obtain ⟨_, rfl, rfl, _, hs⟩ := h'
      exact ⟨by simp, (slotsSpan_nil.1 hs).symm⟩
  | 1, index, done, slots, c, d => by
    rw [readSlots_one]
    refine ⟨?_, ?_⟩
    · intro hx
      obtain ⟨k, hk, hw, rfl⟩ := hx
      exact ⟨[some k], rfl, rfl, hw, (slotsSpan_some index).2 ⟨d, hk, slotsSpan_nil.2 rfl⟩⟩
    · intro hx
      obtain ⟨new, rfl, hlen, hfill, hs⟩ := hx
      obtain ⟨s, rfl⟩ := List.length_eq_one_iff.1 hlen
      cases s with
      | none => exact hfill.elim
      | some k =>
        obtain ⟨e, hk, hs⟩ := (slotsSpan_some index).1 hs
        obtain rfl := slotsSpan_nil.1 hs
        exact ⟨k, hk, hfill, rfl⟩
  | left + 2, index, done, slots, c, d => by
    -- With two slots left a wide constant has room for the empty slot behind it.
    rw [readSlots_more]
    refine ⟨?_, ?_⟩
    · intro hx
      obtain ⟨k, e, hk, h⟩ := hx
      cases hw : k.isWide with
      | true =>
        rw [if_pos hw] at h
        obtain ⟨new, rfl, rfl, hfill, hs⟩ := readSlots_ok_iff.1 h
        refine ⟨some k :: none :: new, by simp, rfl, ?_, ?_⟩
        · simp [Filled, hw, hfill]
        · exact (slotsSpan_some index).2 ⟨e, hk, slotsSpan_none.2 hs⟩
      | false =>
        rw [if_neg (by simp [hw])] at h
        obtain ⟨new, rfl, hlen, hfill, hs⟩ := readSlots_ok_iff.1 h
        obtain ⟨s, new, rfl⟩ := List.exists_cons_of_length_eq_add_one hlen
        refine ⟨some k :: s :: new, by simp, by simpa using hlen, ?_, ?_⟩
        · simpa [Filled, hw] using hfill
        · exact (slotsSpan_some index).2 ⟨e, hk, hs⟩
    · intro hx
      obtain ⟨new, rfl, hlen, hfill, hs⟩ := hx
      obtain ⟨s, new, rfl⟩ := List.exists_cons_of_length_eq_add_one hlen
      obtain ⟨s', new, rfl⟩ := List.exists_cons_of_length_eq_add_one (Nat.succ.inj hlen)
      cases s with
      | none => exact hfill.elim
      | some k =>
        obtain ⟨e, hk, hs⟩ := (slotsSpan_some index).1 hs
        refine ⟨k, e, hk, ?_⟩
        cases hw : k.isWide with
        | true =>
          obtain ⟨rfl, hnew⟩ : s' = none ∧ Filled new := by simpa [Filled, hw] using hfill
          rw [if_pos rfl]
          exact readSlots_ok_iff.2
            ⟨new, by simp, by simpa using hlen, hnew, slotsSpan_none.1 hs⟩
        | false =>
          rw [if_neg (by simp)]
          refine readSlots_ok_iff.2 ⟨s' :: new, by simp, by simpa using hlen, ?_, hs⟩
          simpa [Filled, hw] using hfill

/-- Every wide constant is followed by an empty slot, and every empty slot follows a wide
constant. -/
structure Paired (slots : List Slot) : Prop where
  followed : ∀ i k, slots[i]? = some (some k) → k.isWide = true → slots[i + 1]? = some none
  preceded : ∀ i, slots[i]? = some none →
    ∃ j k, i = j + 1 ∧ slots[j]? = some (some k) ∧ k.isWide = true

theorem not_paired_none {rest : List Slot} : ¬ Paired (none :: rest) := by
  intro h
  obtain ⟨j, k, hj, _⟩ := h.preceded 0 rfl
  cases hj

theorem paired_narrow {k : Constant} {rest : List Slot} (hw : k.isWide = false) :
    Paired (some k :: rest) ↔ Paired rest := by
  refine ⟨?_, ?_⟩
  · intro h
    refine ⟨fun i k' hk' hw' => h.followed (i + 1) k' hk' hw', fun i hi => ?_⟩
    obtain ⟨j, k', hj, hk', hw'⟩ := h.preceded (i + 1) hi
    obtain rfl : i = j := Nat.succ.inj hj
    -- The first constant is narrow, so no empty slot can be owed to it.
    cases i with
    | zero =>
      obtain rfl : k = k' := by simpa using hk'
      rw [hw] at hw'
      cases hw'
    | succ i => exact ⟨i, k', rfl, hk', hw'⟩
  · intro h
    refine ⟨fun i k' hk' hw' => ?_, fun i hi => ?_⟩
    · cases i with
      | zero =>
        obtain rfl : k = k' := by simpa using hk'
        rw [hw] at hw'
        cases hw'
      | succ i => exact h.followed i k' hk' hw'
    · cases i with
      | zero => simp at hi
      | succ i =>
        obtain ⟨j, k', rfl, hk', hw'⟩ := h.preceded i hi
        exact ⟨j + 1, k', rfl, hk', hw'⟩

theorem paired_wide {k : Constant} {rest : List Slot} (hw : k.isWide = true) :
    Paired (some k :: none :: rest) ↔ Paired rest := by
  refine ⟨?_, ?_⟩
  · intro h
    refine ⟨fun i k' hk' hw' => h.followed (i + 2) k' hk' hw', fun i hi => ?_⟩
    obtain ⟨j, k', hj, hk', hw'⟩ := h.preceded (i + 2) hi
    obtain rfl : i + 1 = j := Nat.succ.inj hj
    cases i with
    | zero => simp at hk'
    | succ i => exact ⟨i, k', rfl, hk', hw'⟩
  · intro h
    refine ⟨fun i k' hk' hw' => ?_, fun i hi => ?_⟩
    · match i with
      | 0 => rfl
      | 1 => simp at hk'
      | i + 2 => exact h.followed i k' hk' hw'
    · match i with
      | 0 => simp at hi
      | 1 => exact ⟨0, k, rfl, rfl, hw⟩
      | i + 2 =>
        obtain ⟨j, k', rfl, hk', hw'⟩ := h.preceded i hi
        exact ⟨j + 2, k', rfl, hk', hw'⟩

/-- The slots that reading fills are those that are paired. -/
theorem filled_iff_paired (slots : List Slot) : Filled slots ↔ Paired slots := by
  fun_induction Filled slots with
  | case1 => exact ⟨fun _ => ⟨by simp, by simp⟩, fun _ => trivial⟩
  | case2 rest => exact ⟨False.elim, not_paired_none⟩
  | case3 k =>
    refine ⟨?_, ?_⟩
    · intro hw
      exact (paired_narrow hw).2 ⟨by simp, by simp⟩
    · intro h
      cases hw : k.isWide with
      | false => rfl
      | true => exact absurd (h.followed 0 k rfl hw) (by simp)
  | case4 k s rest hw ih =>
    refine ⟨?_, ?_⟩
    · intro h
      obtain ⟨rfl, h⟩ := h
      exact (paired_wide hw).2 (ih.1 h)
    · intro h
      obtain rfl : s = none := by simpa using h.followed 0 k rfl hw
      exact ⟨rfl, ih.2 ((paired_wide hw).1 h)⟩
  | case5 k s rest hw ih =>
    rw [ih, paired_narrow (by simpa using hw)]

/-! ## Pools -/

theorem pool_encode_ok_iff {pool : Pool} {bs : Bytes} :
    pool.encode = .ok bs ↔ pool.count < capacity 2 ∧
      ∃ cs, encodeAll encodeSlot pool.slots.toList = .ok cs ∧ beBytes 2 pool.count ++ cs = bs := by
  simp only [Pool.encode, bind_ok_iff, pure_ok_iff, encodeLength_ok_iff]
  refine ⟨?_, ?_⟩
  · intro h
    obtain ⟨_, ⟨h, rfl⟩, h'⟩ := h
    exact ⟨h, h'⟩
  · intro h
    obtain ⟨h, h'⟩ := h
    exact ⟨_, ⟨h, rfl⟩, h'⟩

theorem readPool_ok_iff {pool : Pool} {c d : Cursor} :
    readPool c = .ok (pool, d) ↔ Paired pool.slots.toList ∧
      ∃ count : UInt16, pool.slots.size = count.toNat - 1 ∧
        ∃ e, Spans (u16Bytes count) c e ∧ SlotsSpan pool.slots.toList e d := by
  obtain ⟨slots⟩ := pool
  simp only [readPool, bind_read_iff, pure_read_iff, u16_ok_iff, Pool.mk.injEq,
    ← filled_iff_paired]
  refine ⟨?_, ?_⟩
  · intro h
    obtain ⟨count, e, hs, new, f, h, rfl, rfl⟩ := h
    obtain ⟨_, rfl, hlen, hfill, ht⟩ := readSlots_ok_iff.1 h
    exact ⟨hfill, count, by simpa using hlen, e, hs, ht⟩
  · intro h
    obtain ⟨hfill, count, hlen, e, hs, ht⟩ := h
    have h : readSlots (count.toNat - 1) 1 [] e = .ok (slots.toList, d) :=
      readSlots_ok_iff.2 ⟨slots.toList, rfl, by simpa using hlen, hfill, ht⟩
    exact ⟨count, e, hs, slots.toList, d, h, by simp, rfl⟩

/-- A pool with a slot is read from the bytes that it is written in, if its slots are paired. -/
theorem pool_ok_iff {pool : Pool} (hpos : 0 < pool.slots.size) {c d : Cursor} :
    readPool c = .ok (pool, d) ↔
      Paired pool.slots.toList ∧ ∃ bs, pool.encode = .ok bs ∧ Spans bs c d := by
  rw [readPool_ok_iff]
  apply and_congr_right
  intro _
  simp only [pool_encode_ok_iff]
  refine ⟨?_, ?_⟩
  · intro h
    obtain ⟨count, hlen, e, hs, bs, hbs, ht⟩ := h
    have hcount : pool.count = count.toNat := by rw [Pool.count, hlen]; omega
    refine ⟨_, ⟨?_, bs, hbs, rfl⟩, spans_append.2 ⟨e, ?_, ht⟩⟩
    · rw [hcount]
      exact count.toNat_lt
    · rwa [hcount]
  · intro h
    obtain ⟨_, ⟨hlt, bs, hbs, rfl⟩, hs⟩ := h
    obtain ⟨e, hs, ht⟩ := spans_append.1 hs
    have hcount : (UInt16.ofNat pool.count).toNat = pool.count := UInt16.toNat_ofNat_of_lt' hlt
    refine ⟨UInt16.ofNat pool.count, ?_, e, by rwa [u16Bytes, hcount], bs, hbs, ht⟩
    rw [hcount, Pool.count, Nat.add_sub_cancel]

end Unseal
