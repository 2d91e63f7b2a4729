import Unseal.ClassFile.Edit
import Unseal.Proofs.ClassFile.Layout
/-
  Clearing — what stripping a class does to its bytes

  Stripping is done on the class and the bytes are made anew, so what becomes of
  the bytes is said by comparing two writings part by part. Two lists of bytes
  that stand at one offset differ at known offsets (`DiffersAt`); where lists
  stand one behind the other, so do the offsets (`DiffersAt.append`). The offsets
  come out in order, so no byte is counted twice.

  What is proved:
    1. `DiffersAt.changedOffsets_eq` — the offsets of a difference are all offsets
       at which the bytes differ.
    2. `encode_strip` — the writing of a stripped class differs from that of the
       class at the offsets `finalOffsets`, by the one bit.
    3. `mem_finalOffsets`, `length_finalOffsets` — which offsets these are, and
       that there are as many as stripping reports.
-/

namespace Unseal

/-! ## Differences -/

/-- The bytes, the first of which stands at `start`, differ at these offsets only, and there by
the change. -/
structure DiffersAt (change : UInt8 → UInt8 → Prop) (start : Nat) (offsets : List Nat)
    (old new : Bytes) : Prop where
  ordered : offsets.Pairwise (· < ·)
  sameLength : new.length = old.length
  changed : ∀ o ∈ offsets, ∃ i v w,
    o = start + i ∧ old[i]? = some v ∧ new[i]? = some w ∧ change v w
  kept : ∀ i, start + i ∉ offsets → new[i]? = old[i]?

namespace DiffersAt

variable {change : UInt8 → UInt8 → Prop} {start : Nat} {ps qs : List Nat} {as as' bs bs' : Bytes}

theorem refl (start : Nat) (bs : Bytes) : DiffersAt change start [] bs bs :=
  ⟨List.Pairwise.nil, rfl, by simp, fun _ _ => rfl⟩

theorem bounds (h : DiffersAt change start ps as as') {o : Nat} (ho : o ∈ ps) :
    start ≤ o ∧ o < start + as.length := by
  obtain ⟨i, v, w, rfl, hv, _⟩ := h.changed o ho
  have := (List.getElem?_eq_some_iff.1 hv).1
  omega

theorem append (h : DiffersAt change start ps as as')
    (h' : DiffersAt change (start + as.length) qs bs bs') :
    DiffersAt change start (ps ++ qs) (as ++ bs) (as' ++ bs') := by
  refine ⟨?_, ?_, ?_, ?_⟩
  -- All offsets of the first difference lie before those of the second.
  · refine List.pairwise_append.2 ⟨h.ordered, h'.ordered, fun p hp q hq => ?_⟩
    have := h.bounds hp
    have := h'.bounds hq
    omega
  · rw [List.length_append, List.length_append, h.sameLength, h'.sameLength]
  · intro o ho
    rcases List.mem_append.1 ho with ho | ho
    · obtain ⟨i, v, w, rfl, hv, hw, hc⟩ := h.changed o ho
      refine ⟨i, v, w, rfl, ?_, ?_, hc⟩
      · rw [List.getElem?_append_left (List.getElem?_eq_some_iff.1 hv).1, hv]
      · rw [List.getElem?_append_left (List.getElem?_eq_some_iff.1 hw).1, hw]
    · obtain ⟨i, v, w, rfl, hv, hw, hc⟩ := h'.changed o ho
      refine ⟨as.length + i, v, w, by omega, ?_, ?_, hc⟩
      · rw [List.getElem?_append_right (by omega), Nat.add_sub_cancel_left, hv]
      · rw [List.getElem?_append_right (by rw [h.sameLength]; omega), h.sameLength,
          Nat.add_sub_cancel_left, hw]
  · intro i hi
    simp only [List.mem_append, not_or] at hi
    by_cases hlt : i < as.length
    · rw [List.getElem?_append_left hlt, List.getElem?_append_left (h.sameLength ▸ hlt), h.kept i hi.1]
    · have hge : as.length ≤ i := Nat.le_of_not_lt hlt
      have hq : start + as.length + (i - as.length) ∉ qs := by
        rw [Nat.add_assoc, Nat.add_sub_of_le hge]
        exact hi.2
      rw [List.getElem?_append_right hge, List.getElem?_append_right (h.sameLength ▸ hge),
        h.sameLength, h'.kept _ hq]

theorem behind (h : DiffersAt change (start + as.length) ps bs bs') :
    DiffersAt change start ps (as ++ bs) (as ++ bs') :=
  (refl start as).append h

theorem between (h : DiffersAt change (start + as.length) ps bs bs') (rest : Bytes) :
    DiffersAt change start ps (as ++ bs ++ rest) (as ++ bs' ++ rest) := by
  simpa using h.behind.append (refl _ rest)

theorem congr (h : DiffersAt change start ps as as') {start' : Nat} {ps' : List Nat}
    (hs : start = start') (hp : ps = ps') : DiffersAt change start' ps' as as' := by
  subst hs hp
  exact h

end DiffersAt

/-- The offsets at which the bytes differ, in order. -/
def changedOffsets (old new : Bytes) : List Nat :=
  (List.range old.length).filter fun i => old[i]? ≠ new[i]?

theorem DiffersAt.ne_iff {change : UInt8 → UInt8 → Prop} {ps : List Nat} {old new : Bytes}
    (h : DiffersAt change 0 ps old new) (hchange : ∀ v, ¬ change v v) {i : Nat} :
    old[i]? ≠ new[i]? ↔ i ∈ ps := by
  refine ⟨?_, ?_⟩
  · intro hne
    apply Decidable.byContradiction
    intro hi
    apply hne
    exact (h.kept i (by rwa [Nat.zero_add])).symm
  · intro hi heq
    obtain ⟨j, v, w, rfl, hv, hw, hc⟩ := h.changed i hi
    rw [Nat.zero_add, hv, hw, Option.some.injEq] at heq
    rw [← heq] at hc
    exact hchange v hc

/-- The offsets of a difference are all offsets at which the bytes differ. -/
theorem DiffersAt.changedOffsets_eq {change : UInt8 → UInt8 → Prop} {ps : List Nat}
    {old new : Bytes} (h : DiffersAt change 0 ps old new) (hchange : ∀ v, ¬ change v v) :
    changedOffsets old new = ps := by
  have hmem : ∀ i, i ∈ changedOffsets old new ↔ i ∈ ps := by
    intro i
    rw [changedOffsets, List.mem_filter, List.mem_range, decide_eq_true_iff, h.ne_iff hchange,
      and_iff_right_iff_imp]
    intro hi
    have := (h.bounds hi).2
    omega
  -- Two lists in order that hold the same are one list.
  have hordered : (changedOffsets old new).Pairwise (· < ·) :=
    List.Pairwise.filter _ List.pairwise_lt_range
  have hperm := (List.perm_ext_iff_of_nodup (hordered.imp Nat.ne_of_lt)
    (h.ordered.imp Nat.ne_of_lt)).2 hmem
  exact hperm.eq_of_pairwise (fun a b _ _ hab hba => absurd hba (Nat.lt_asymm hab)) hordered h.ordered

theorem DiffersAt.eq_of_nil {change : UInt8 → UInt8 → Prop} {start : Nat} {old new : Bytes}
    (h : DiffersAt change start [] old new) : new = old :=
  List.ext_getElem? fun i => h.kept i (by simp)

/-! ## Flags -/

/-- The byte had the bit of `final`, and that bit alone is cleared. -/
def Cleared (old new : UInt8) : Prop := old &&& 0x10 = 0x10 ∧ new = old &&& ~~~0x10

theorem not_cleared_self (v : UInt8) : ¬ Cleared v v := by
  intro h
  obtain ⟨hset, hclear⟩ := h
  rw [hclear, UInt8.and_assoc] at hset
  exact absurd hset (by simp)

theorem u16Bytes_eq (v : UInt16) : u16Bytes v = [(v >>> 8).toUInt8, v.toUInt8] := by
  have hhigh : UInt8.ofNat (v.toNat / 256) = (v >>> 8).toUInt8 := by
    apply UInt8.toNat_inj.1
    simp [Nat.shiftRight_eq_div_pow]
  have hlow : UInt8.ofNat v.toNat = v.toUInt8 := by
    apply UInt8.toNat_inj.1
    simp
  simp [u16Bytes, beBytes, capacity, hhigh, hlow]

theorem withoutFinal_differs {a : Access} (h : a.isFinal = true) (start : Nat) :
    DiffersAt Cleared start [start + 1] (u16Bytes a.bits) (u16Bytes a.withoutFinal.bits) := by
  -- The mask is all ones above the low byte, so the high byte is kept.
  have hbits : a.bits &&& 0x10 = 0x10 := of_decide_eq_true h
  have hmask : ((~~~0x10 : UInt16) >>> 8).toUInt8 = -1 := by decide
  have hhigh : (a.withoutFinal.bits >>> 8).toUInt8 = (a.bits >>> 8).toUInt8 := by
    rw [Access.withoutFinal, Access.finalBit, UInt16.shiftRight_and, UInt16.toUInt8_and, hmask,
      UInt8.and_neg_one]
  have hlow : a.withoutFinal.bits.toUInt8 = a.bits.toUInt8 &&& ~~~0x10 := by
    simp [Access.withoutFinal, Access.finalBit]
  have hset : a.bits.toUInt8 &&& 0x10 = 0x10 := by
    have := congrArg UInt16.toUInt8 hbits
    rwa [UInt16.toUInt8_and] at this
  rw [u16Bytes_eq, u16Bytes_eq, hhigh, hlow]
  refine ⟨by simp, rfl, ?_, ?_⟩
  · intro o ho
    obtain rfl : o = start + 1 := by simpa using ho
    exact ⟨1, _, _, rfl, rfl, rfl, hset, rfl⟩
  · intro i hi
    rcases i with _ | _ | i
    · rfl
    · simp at hi
    · rfl

/-- The offset of the low byte of flags at `start`, if they are final. -/
def Access.finalOffsets (a : Access) (start : Nat) : List Nat :=
  if a.isFinal then [start + 1] else []

theorem stripped_differs (a : Access) (start : Nat) :
    DiffersAt Cleared start (a.finalOffsets start) (u16Bytes a.bits)
      (u16Bytes (if a.isFinal then a.withoutFinal else a).bits) := by
  unfold Access.finalOffsets
  split
  · next h => exact withoutFinal_differs h start
  · exact DiffersAt.refl start _

/-! ## Methods -/

/-- The offset of the low byte of the flags of a method at `start`, if it is public and final. -/
def Method.finalOffsets (m : Method) (start : Nat) : List Nat :=
  if m.isPublicFinal then [start + 1] else []

/-- The same of a row of methods, the first of which stands at `start`. -/
def methodFinalOffsets (start : Nat) : List Method → List Nat
  | [] => []
  | m :: ms => m.finalOffsets start ++ methodFinalOffsets (start + m.size) ms

theorem Method.encode_strip {m : Method} {bs : Bytes} (h : m.encode = .ok bs) (start : Nat) :
    ∃ bs', m.strip.encode = .ok bs' ∧ DiffersAt Cleared start (m.finalOffsets start) bs bs' := by
  unfold strip finalOffsets
  split
  · next hm =>
    simp only [encode, bind_ok_iff, pure_ok_iff] at h ⊢
    obtain ⟨as, has, rfl⟩ := h
    have hfinal : m.access.isFinal = true := (Bool.and_eq_true_iff.1 hm).2
    refine ⟨_, ⟨as, has, rfl⟩, ?_⟩
    simpa using (withoutFinal_differs hfinal start).append
      (DiffersAt.refl _ (u16Bytes m.nameIndex ++ u16Bytes m.descriptorIndex ++ as))
  · exact ⟨bs, h, DiffersAt.refl start bs⟩

theorem encodeAll_strip {ms : List Method} {bs : Bytes} (h : encodeAll Method.encode ms = .ok bs)
    (start : Nat) :
    ∃ bs', encodeAll Method.encode (ms.map Method.strip) = .ok bs' ∧
      DiffersAt Cleared start (methodFinalOffsets start ms) bs bs' := by
  induction ms generalizing bs start with
  | nil => exact ⟨bs, h, DiffersAt.refl start bs⟩
  | cons m ms ih =>
    obtain ⟨as, has, cs, hcs, rfl⟩ := encodeAll_cons_ok_iff.1 h
    obtain ⟨as', has', hhead⟩ := Method.encode_strip has start
    obtain ⟨cs', hcs', htail⟩ := ih hcs (start + m.size)
    refine ⟨as' ++ cs', encodeAll_cons_ok_iff.2 ⟨as', has', cs', hcs', rfl⟩, ?_⟩
    exact hhead.append (htail.congr (by rw [Method.length_of_encode m as has]) rfl)

theorem mem_methodFinalOffsets {start o : Nat} {ms : List Method} :
    o ∈ methodFinalOffsets start ms ↔ ∃ n m, ms[n]? = some m ∧ m.isPublicFinal = true ∧
      o = start + rowSize Method.size (ms.take n) + 1 := by
  induction ms generalizing start with
  | nil => simp [methodFinalOffsets]
  | cons m ms ih =>
    rw [methodFinalOffsets, List.mem_append, ih]
    refine ⟨?_, ?_⟩
    · intro h
      rcases h with ho | ⟨n, m', hm', hfinal, rfl⟩
      · unfold Method.finalOffsets at ho
        split at ho
        · next hm => exact ⟨0, m, rfl, hm, by simpa [rowSize] using ho⟩
        · cases ho
      · refine ⟨n + 1, m', hm', hfinal, ?_⟩
        rw [List.take_succ_cons, rowSize, Nat.add_assoc start m.size]
    · intro h
      obtain ⟨n, m', hm', hfinal, rfl⟩ := h
      cases n with
      | zero =>
        obtain rfl : m = m' := by simpa using hm'
        exact .inl (by simp [Method.finalOffsets, hfinal, rowSize])
      | succ n =>
        refine .inr ⟨n, m', hm', hfinal, ?_⟩
        rw [List.take_succ_cons, rowSize, Nat.add_assoc start m.size]

theorem length_methodFinalOffsets (start : Nat) (ms : List Method) :
    (methodFinalOffsets start ms).length = (ms.filter Method.isPublicFinal).length := by
  induction ms generalizing start with
  | nil => rfl
  | cons m ms ih =>
    rw [methodFinalOffsets, List.length_append, ih, Method.finalOffsets]
    by_cases hm : m.isPublicFinal = true
    · simp [hm, Nat.add_comm]
    · simp [hm]

/-! ## The own entry -/

/-- The offset of the low byte of the flags in the own entry, if they are final. -/
def ClassFile.ownFinalOffsets (c : ClassFile) : List Nat :=
  match c.ownEntry, c.innerAccess with
  | some place, some access => access.finalOffsets (c.placeOffset place)
  | _, _ => []

/-- The attribute with other flags at an offset in its body. -/
def Attribute.withFlags (attr : Attribute) (offset : Nat) (a : Access) : Attribute :=
  { attr with body := setFlagsAt offset a attr.body }

theorem stripInner_cases (c : ClassFile) :
    (c.stripInner = c ∧ c.ownFinalOffsets = []) ∨
      ∃ place attr a, c.ownEntry = some place ∧ c.attributes[place.number]? = some attr ∧
        flagsAt place.offset attr.body = some a ∧ a.isFinal = true ∧
        c.ownFinalOffsets = [c.placeOffset place + 1] ∧
        c.stripInner = { c with
          attributes := c.attributes.set place.number
            (attr.withFlags place.offset a.withoutFinal) } := by
  cases hinner : c.innerAccess with
  | none =>
    refine .inl ⟨by simp only [ClassFile.stripInner, hinner], ?_⟩
    cases hown : c.ownEntry <;> simp only [ClassFile.ownFinalOffsets, hown, hinner]
  | some a =>
    obtain ⟨place, attr, hplace, hattr, ha⟩ := innerAccess_eq_some_iff.1 hinner
    cases hfinal : a.isFinal with
    | false =>
      refine .inl ⟨by simp [ClassFile.stripInner, hinner, hfinal], ?_⟩
      simp [ClassFile.ownFinalOffsets, hplace, hinner, Access.finalOffsets, hfinal]
    | true =>
      refine .inr ⟨place, attr, a, hplace, hattr, ha, hfinal, ?_, ?_⟩
      · simp [ClassFile.ownFinalOffsets, hplace, hinner, Access.finalOffsets, hfinal]
      · simp [ClassFile.stripInner, ClassFile.setInnerAccess, hinner, hfinal, hplace, hattr, ha,
          Attribute.withFlags]

theorem setFlagsAt_append (head tail : Bytes) (a b : Access) :
    setFlagsAt head.length b (head ++ u16Bytes a.bits ++ tail) =
      head ++ u16Bytes b.bits ++ tail := by
  have htake : (head ++ u16Bytes a.bits ++ tail).take head.length = head := by
    rw [List.append_assoc, List.take_left]
  have hdrop : (head ++ u16Bytes a.bits ++ tail).drop (head.length + 2) = tail := by
    rw [List.append_assoc, ← List.drop_drop, List.drop_left]
    exact List.drop_left' (length_u16Bytes a.bits)
  rw [setFlagsAt, htake, hdrop, u16Bytes]

theorem Attribute.encode_withFlags {attr : Attribute} {bs : Bytes} (h : attr.encode = .ok bs)
    {offset : Nat} {a : Access} (ha : flagsAt offset attr.body = some a) (hfinal : a.isFinal = true)
    (start : Nat) :
    ∃ bs', (attr.withFlags offset a.withoutFinal).encode = .ok bs' ∧
      DiffersAt Cleared start [start + 6 + offset + 1] bs bs' := by
  obtain ⟨head, tail, hbody, hhead⟩ := eq_append_of_flagsAt ha
  have hnew : (attr.withFlags offset a.withoutFinal).body =
      head ++ u16Bytes a.withoutFinal.bits ++ tail := by
    rw [withFlags, hbody, ← hhead, setFlagsAt_append]
  -- The length is written in front of the body, so it must not change.
  have hlen : (attr.withFlags offset a.withoutFinal).body.length = attr.body.length := by
    rw [hnew, hbody]
    simp only [List.length_append, length_u16Bytes]
  simp only [encode, bind_ok_iff, pure_ok_iff, encodeLength_ok_iff, hlen] at h ⊢
  obtain ⟨length, hlength, rfl⟩ := h
  refine ⟨_, ⟨length, hlength, rfl⟩, ?_⟩
  have hfront : (u16Bytes attr.nameIndex ++ length ++ head).length = 6 + offset := by
    simp only [List.length_append, length_u16Bytes, hlength.2, length_beBytes, hhead]
  have hflags : DiffersAt Cleared (start + (u16Bytes attr.nameIndex ++ length ++ head).length)
      [start + 6 + offset + 1] (u16Bytes a.bits) (u16Bytes a.withoutFinal.bits) :=
    (withoutFinal_differs hfinal (start + 6 + offset)).congr (by rw [hfront, Nat.add_assoc]) rfl
  rw [hnew, hbody]
  simpa [withFlags] using hflags.between tail

/-- What clearing `final` in the own entry does to the bytes of the attributes, the first of which
stands at `start`. -/
theorem encodeAll_withFlags {as : List Attribute} {bs : Bytes}
    (h : encodeAll Attribute.encode as = .ok bs) {n offset : Nat} {attr : Attribute}
    (hattr : as[n]? = some attr) {a : Access} (ha : flagsAt offset attr.body = some a)
    (hfinal : a.isFinal = true) (start : Nat) :
    ∃ bs', encodeAll Attribute.encode (as.set n (attr.withFlags offset a.withoutFinal)) = .ok bs' ∧
      DiffersAt Cleared start
        [start + rowSize Attribute.size (as.take n) + 6 + offset + 1] bs bs' := by
  obtain ⟨before, mid, after, hmid, rfl, hlen, hset⟩ :=
    encodeAll_at Attribute.length_of_encode hattr h
  obtain ⟨new, hnew, hdiffers⟩ := Attribute.encode_withFlags hmid ha hfinal (start + before.length)
  refine ⟨_, hset _ new hnew, ?_⟩
  rw [← hlen]
  exact hdiffers.between after

/-! ## The class -/

namespace ClassFile

/-- The offsets of the low bytes of the flags that stripping clears `final` in. -/
def finalOffsets (c : ClassFile) : List Nat :=
  c.access.finalOffsets c.accessOffset ++ methodFinalOffsets c.methodsOffset c.methods ++
    c.ownFinalOffsets

theorem stripInner_withAccess (c : ClassFile) (a : Access) :
    ({ c with access := a }).stripInner = { c with
      access := a
      attributes := c.stripInner.attributes } := by
  cases hinner : c.innerAccess with
  | none =>
    have hinner' : ({ c with access := a }).innerAccess = none := hinner
    simp only [stripInner, hinner, hinner']
  | some inner =>
    have hinner' : ({ c with access := a }).innerAccess = some inner := hinner
    obtain ⟨place, attr, hplace, hattr, hflags⟩ := innerAccess_eq_some_iff.1 hinner
    cases hfinal : inner.isFinal with
    | false => simp [stripInner, hinner, hinner', hfinal]
    | true =>
      simp only [stripInner, hinner, hinner', hfinal, if_true]
      simp only [setInnerAccess, hplace, hattr, hflags, Option.getD_some]

theorem strip_eq (c : ClassFile) : c.strip.1 = { c with
    access := if c.access.isFinal then c.access.withoutFinal else c.access
    methods := c.methods.map Method.strip
    attributes := c.stripInner.attributes } := by
  have hown : (if c.access.isFinal then { c with access := c.access.withoutFinal } else c) =
      { c with access := if c.access.isFinal then c.access.withoutFinal else c.access } := by
    split <;> rfl
  simp only [strip, hown, stripInner_withAccess]

theorem encodeAttributes_stripInner {c : ClassFile} {bs : Bytes}
    (h : encodeAttributes c.attributes = .ok bs) :
    ∃ bs', encodeAttributes c.stripInner.attributes = .ok bs' ∧
      DiffersAt Cleared (c.methodsOffset + rowSize Method.size c.methods) c.ownFinalOffsets
        bs bs' := by
  rcases stripInner_cases c with ⟨hkeep, hnone⟩ | ⟨place, attr, a, _, hattr, ha, hfinal, hoffset, hset⟩
  · rw [hkeep, hnone]
    exact ⟨bs, h, DiffersAt.refl _ bs⟩
  · obtain ⟨hfits, as, has, rfl⟩ := encodeTable_ok_iff.1 h
    obtain ⟨as', has', hdiffers⟩ := encodeAll_withFlags has hattr ha hfinal c.attributesOffset
    rw [hset, hoffset]
    refine ⟨_, encodeTable_ok_iff.2 ⟨by simpa using hfits, as', has', rfl⟩, ?_⟩
    rw [List.length_set]
    exact (hdiffers.congr (by rw [length_beBytes, attributesOffset]) rfl).behind

/-- The writing of a stripped class is that of the class, with `final` cleared at the offsets. -/
theorem encode_strip {c : ClassFile} {bs : Bytes} (h : c.encode = .ok bs) :
    ∃ bs', c.strip.1.encode = .ok bs' ∧ DiffersAt Cleared 0 c.finalOffsets bs bs' := by
  obtain ⟨front, middle, hframe, _, hmethods, as, has, rfl⟩ := encode_ok_iff_framed.1 h
  obtain ⟨hfits, ms, hms, rfl⟩ := encodeTable_ok_iff.1 hmethods
  obtain ⟨hfront, hmiddle⟩ := length_of_framed hframe
  obtain ⟨ms', hms', hmethods⟩ := encodeAll_strip hms c.methodsOffset
  obtain ⟨as', has', hattributes⟩ := encodeAttributes_stripInner has
  have hlen := length_of_encodeAll Method.length_of_encode hms
  have htable : encodeTable .methods Method.encode (c.methods.map Method.strip) =
      .ok (beBytes 2 c.methods.length ++ ms') :=
    encodeTable_ok_iff.2 ⟨by simpa using hfits, ms', hms', by simp⟩
  -- The three kinds of flags stand in this order, each part behind what is before it.
  rw [strip_eq]
  refine ⟨_, encode_ok_iff_framed.2 ⟨front, middle, hframe, _, htable, as', has', rfl⟩, ?_⟩
  have hmiddle' : 0 + (front ++ u16Bytes c.access.bits).length +
      (middle ++ beBytes 2 c.methods.length).length = c.methodsOffset := by
    simp only [List.length_append, length_u16Bytes, length_beBytes]
    omega
  have hclass : DiffersAt Cleared 0 (c.access.finalOffsets c.accessOffset)
      (front ++ u16Bytes c.access.bits)
      (front ++ u16Bytes (if c.access.isFinal then c.access.withoutFinal else c.access).bits) :=
    ((stripped_differs c.access c.accessOffset).congr (by omega) rfl).behind
  have hrow := (hmethods.congr hmiddle'.symm rfl).behind
  have hall := (hclass.append hrow).append (hattributes.congr (by simp; omega) rfl)
  simpa [finalOffsets] using hall

/-- There are as many of them as there are places that stripping reports. -/
theorem length_finalOffsets (c : ClassFile) :
    c.finalOffsets.length = c.stripSummary.methods.length + c.access.isFinal.toNat +
      (c.innerAccess.any Access.isFinal).toNat := by
  have hlen : ∀ (a : Access) (start : Nat), (a.finalOffsets start).length = a.isFinal.toNat := by
    intro a start
    cases h : a.isFinal <;> simp [Access.finalOffsets, h]
  have hown : c.ownFinalOffsets.length = (c.innerAccess.any Access.isFinal).toNat := by
    cases hinner : c.innerAccess with
    | none => cases hplace : c.ownEntry <;> simp [ownFinalOffsets, hplace, hinner]
    | some a =>
      obtain ⟨place, _, hplace, _, _⟩ := innerAccess_eq_some_iff.1 hinner
      simp [ownFinalOffsets, hplace, hinner, hlen]
  rw [finalOffsets, List.length_append, List.length_append, hlen, length_methodFinalOffsets, hown,
    stripSummary, List.length_map]
  omega

/-- Stripping clears `final` in the byte at this offset: in the low byte of the flags of the class,
of a method that is public and final, or of the own entry. -/
inductive ClearsAt (c : ClassFile) : Nat → Prop where
  | own (h : c.access.isFinal = true) : ClearsAt c (c.accessOffset + 1)
  | method {n m} (hm : c.methods[n]? = some m) (h : m.isPublicFinal = true) :
    ClearsAt c (c.methodOffset n + 1)
  | inner {place a} (hplace : c.ownEntry = some place) (ha : c.innerAccess = some a)
    (h : a.isFinal = true) : ClearsAt c (c.placeOffset place + 1)

theorem mem_finalOffsets {c : ClassFile} {o : Nat} : o ∈ c.finalOffsets ↔ c.ClearsAt o := by
  have hclass : o ∈ c.access.finalOffsets c.accessOffset ↔
      c.access.isFinal = true ∧ o = c.accessOffset + 1 := by
    simp [Access.finalOffsets]
  have hown : o ∈ c.ownFinalOffsets ↔ ∃ place a, c.ownEntry = some place ∧
      c.innerAccess = some a ∧ a.isFinal = true ∧ o = c.placeOffset place + 1 := by
    cases hplace : c.ownEntry <;> cases hinner : c.innerAccess <;>
      simp [ownFinalOffsets, Access.finalOffsets, hplace, hinner]
  rw [finalOffsets, List.mem_append, List.mem_append, mem_methodFinalOffsets, hown, hclass]
  refine ⟨?_, ?_⟩
  · intro h
    rcases h with (⟨h, rfl⟩ | ⟨n, m, hm, h, rfl⟩) | ⟨place, a, hplace, ha, h, rfl⟩
    · exact .own h
    · exact .method hm h
    · exact .inner hplace ha h
  · intro h
    rcases h with h | ⟨hm, h⟩ | ⟨hplace, ha, h⟩
    · exact .inl (.inl ⟨h, rfl⟩)
    · exact .inl (.inr ⟨_, _, hm, h, rfl⟩)
    · exact .inr ⟨_, _, hplace, ha, h, rfl⟩

end ClassFile

end Unseal
