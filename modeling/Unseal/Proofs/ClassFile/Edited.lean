import Unseal.ClassFile.Edit
import Unseal.Proofs.ClassFile.Stripped
/-
  Edited classes — what edits do to the bytes of a class

  An edit of flags is a patch of the bytes: the new flags are written over the old
  ones and nothing else moves. Stripping is a patch at the flags that it clears. So
  after any edits the bytes differ from those that were read at most where flags
  stand, and where flags stand is told by the class without them, which no edit
  changes. The own entry is found again behind other flags, so an edited class is
  consistent, and reading its bytes gives it back.

  What is proved:
    1. `encode_setAccess`, `encode_setMethodAccess`, `encode_setInnerAccess` — an
       edit of flags writes them over the old ones.
    2. `withoutFlags_edit`, `Consistent.edit` — what an edit keeps.
    3. `editAll_reads_back` — after any edits of a class that was read its bytes are
       those that were read but for the flags, and hold the edited class.
-/

namespace Unseal

/-! ## Patches -/

theorem setFlagsAt_split (head tail : Bytes) (old a : Access) {bs : Bytes} {offset : Nat}
    (hbs : bs = head ++ u16Bytes old.bits ++ tail) (hoffset : head.length = offset) :
    setFlagsAt offset a bs = head ++ u16Bytes a.bits ++ tail := by
  rw [hbs, ← hoffset, setFlagsAt_append]

theorem getElem?_setFlagsAt {bs : Bytes} {offset o : Nat} {old : Access}
    (h : flagsAt offset bs = some old) (a : Access) (hfirst : o ≠ offset)
    (hsecond : o ≠ offset + 1) : (setFlagsAt offset a bs)[o]? = bs[o]? := by
  obtain ⟨head, tail, hbs, rfl⟩ := eq_append_of_flagsAt h
  rw [setFlagsAt_split head tail old a hbs rfl, hbs, List.append_assoc, List.append_assoc]
  by_cases hlt : o < head.length
  · rw [List.getElem?_append_left hlt, List.getElem?_append_left hlt]
  · have hbehind : ∀ b : Access, (u16Bytes b.bits).length ≤ o - head.length := by
      intro b
      rw [length_u16Bytes]
      omega
    have hge : head.length ≤ o := Nat.le_of_not_lt hlt
    rw [List.getElem?_append_right hge, List.getElem?_append_right (hbehind a),
      List.getElem?_append_right hge, List.getElem?_append_right (hbehind old), length_u16Bytes,
      length_u16Bytes]

theorem setFlagsAt_setFlagsAt {bs : Bytes} {offset : Nat} {old : Access}
    (h : flagsAt offset bs = some old) (a b : Access) :
    setFlagsAt offset b (setFlagsAt offset a bs) = setFlagsAt offset b bs := by
  obtain ⟨head, tail, hbs, hoffset⟩ := eq_append_of_flagsAt h
  rw [setFlagsAt_split head tail old a hbs hoffset, setFlagsAt_split head tail old b hbs hoffset,
    setFlagsAt_split head tail a b rfl hoffset]

theorem Attribute.encode_withFlags_eq {attr : Attribute} {bs : Bytes} (h : attr.encode = .ok bs)
    {offset : Nat} {old : Access} (hold : flagsAt offset attr.body = some old) (a : Access) :
    ∃ head tail, bs = head ++ u16Bytes old.bits ++ tail ∧ head.length = 6 + offset ∧
      (attr.withFlags offset a).encode = .ok (head ++ u16Bytes a.bits ++ tail) := by
  obtain ⟨head, tail, hbody, hhead⟩ := eq_append_of_flagsAt hold
  -- The length is written in front of the body, so it must not change.
  have hlen : (attr.withFlags offset a).body.length = attr.body.length :=
    (take_setFlagsAt hold (Nat.zero_le offset)).1
  have hnew : (attr.withFlags offset a).body = head ++ u16Bytes a.bits ++ tail :=
    setFlagsAt_split head tail old a hbody hhead
  simp only [encode, bind_ok_iff, pure_ok_iff, encodeLength_ok_iff, hlen] at h ⊢
  obtain ⟨length, hlength, rfl⟩ := h
  refine ⟨u16Bytes attr.nameIndex ++ length ++ head, tail, ?_, ?_, length, hlength, ?_⟩
  · rw [hbody]
    simp only [List.append_assoc]
  · simp only [List.length_append, length_u16Bytes, hlength.2, length_beBytes, hhead]
  · rw [hnew]
    simp only [withFlags, List.append_assoc]

namespace ClassFile

variable {c : ClassFile} {bs : Bytes}

theorem encode_setAccess (h : c.encode = .ok bs) (a : Access) :
    ({ c with access := a }).encode = .ok (setFlagsAt c.accessOffset a bs) := by
  obtain ⟨front, middle, hframe, ms, hms, as, has, rfl⟩ := encode_ok_iff_framed.1 h
  rw [setFlagsAt_split front (middle ++ ms ++ as) c.access a (by simp only [List.append_assoc])
    (length_of_framed hframe).1]
  exact encode_ok_iff_framed.2
    ⟨front, middle, hframe, ms, hms, as, has, by simp only [List.append_assoc]⟩

theorem encode_setMethodAccess (h : c.encode = .ok bs) {n : Nat} {m : Method}
    (hm : c.methods[n]? = some m) (a : Access) :
    ({ c with methods := c.methods.set n { m with access := a } }).encode =
      .ok (setFlagsAt (c.methodOffset n) a bs) := by
  obtain ⟨front, middle, hframe, _, htable, as, has, rfl⟩ := encode_ok_iff_framed.1 h
  obtain ⟨hfits, ms, hms, rfl⟩ := encodeTable_ok_iff.1 htable
  -- The table is cut at the method, and the flags are the first thing in the method.
  obtain ⟨before, mid, after, hmid, rfl, hlen, hset⟩ := encodeAll_at Method.length_of_encode hm hms
  simp only [Method.encode, bind_ok_iff, pure_ok_iff] at hmid
  obtain ⟨body, hbody, rfl⟩ := hmid
  have hnew : ({ m with access := a } : Method).encode =
      .ok (u16Bytes a.bits ++ u16Bytes m.nameIndex ++ u16Bytes m.descriptorIndex ++ body) := by
    simp only [Method.encode, bind_ok_iff, pure_ok_iff]
    exact ⟨body, hbody, rfl⟩
  have hoffset : (front ++ u16Bytes c.access.bits ++ middle ++ beBytes 2 c.methods.length ++
      before).length = c.methodOffset n := by
    rw [methodOffset, ← (length_of_framed hframe).2, ← (length_of_framed hframe).1]
    simp only [List.length_append, length_u16Bytes, length_beBytes, hlen]
  rw [setFlagsAt_split (front ++ u16Bytes c.access.bits ++ middle ++
      beBytes 2 c.methods.length ++ before)
    (u16Bytes m.nameIndex ++ u16Bytes m.descriptorIndex ++ body ++ after ++ as) m.access a
    (by simp only [List.append_assoc]) hoffset]
  refine encode_ok_iff_framed.2 ⟨front, middle, hframe, _,
    encodeTable_ok_iff.2 ⟨by simpa using hfits, _, hset _ _ hnew, rfl⟩, as, has, ?_⟩
  simp only [List.length_set, List.append_assoc]

theorem encode_setInnerAccess (h : c.encode = .ok bs) {place : EntryPlace} {attr : Attribute}
    (hattr : c.attributes[place.number]? = some attr) {old : Access}
    (hold : flagsAt place.offset attr.body = some old) (a : Access) :
    ({ c with attributes := c.attributes.set place.number (attr.withFlags place.offset a) }).encode =
      .ok (setFlagsAt (c.placeOffset place) a bs) := by
  obtain ⟨front, middle, hframe, ms, hms, _, htable, rfl⟩ := encode_ok_iff_framed.1 h
  obtain ⟨hfits, as, has, rfl⟩ := encodeTable_ok_iff.1 htable
  obtain ⟨before, mid, after, hmid, rfl, hlen, hset⟩ :=
    encodeAll_at Attribute.length_of_encode hattr has
  obtain ⟨head, tail, rfl, hhead, hnew⟩ := Attribute.encode_withFlags_eq hmid hold a
  have hmethods := length_of_encodeTable Method.length_of_encode hms
  obtain ⟨hfront, hmiddle⟩ := length_of_framed hframe
  have hoffset : (front ++ u16Bytes c.access.bits ++ middle ++ ms ++
      beBytes 2 c.attributes.length ++ before ++ head).length = c.placeOffset place := by
    simp only [List.length_append, length_u16Bytes, length_beBytes, hlen, hmethods, hhead,
      placeOffset, attributesOffset]
    omega
  rw [setFlagsAt_split (front ++ u16Bytes c.access.bits ++ middle ++ ms ++
      beBytes 2 c.attributes.length ++ before ++ head) (tail ++ after) old a
    (by simp only [List.append_assoc]) hoffset]
  refine encode_ok_iff_framed.2 ⟨front, middle, hframe, ms, hms, _,
    encodeTable_ok_iff.2 ⟨by simpa using hfits, _, hset _ _ hnew, rfl⟩, ?_⟩
  simp only [List.length_set, List.append_assoc]

end ClassFile

/-! ## Classes without their flags -/

/-- The attributes with other flags at a place, if flags can be read there. -/
def withEntryFlags (a : Access) (as : List Attribute) : Option EntryPlace → List Attribute
  | none => as
  | some place =>
    match as[place.number]? with
    | none => as
    | some attr =>
      if (flagsAt place.offset attr.body).isSome then
        as.set place.number (attr.withFlags place.offset a)
      else as

theorem withEntryFlags_of_flagsAt {place : EntryPlace} {as : List Attribute} {attr : Attribute}
    {old : Access} (hattr : as[place.number]? = some attr)
    (hold : flagsAt place.offset attr.body = some old) (a : Access) :
    withEntryFlags a as (some place) = as.set place.number (attr.withFlags place.offset a) := by
  simp only [withEntryFlags, hattr, hold, Option.isSome_some, if_true]

theorem withEntryFlags_cases (as : List Attribute) (place? : Option EntryPlace) :
    (∀ a, withEntryFlags a as place? = as) ∨
      ∃ place attr old, place? = some place ∧ as[place.number]? = some attr ∧
        flagsAt place.offset attr.body = some old := by
  cases place? with
  | none => exact .inl fun _ => rfl
  | some place =>
    cases hattr : as[place.number]? with
    | none =>
      refine .inl fun a => ?_
      rw [withEntryFlags, hattr]
    | some attr =>
      cases hold : flagsAt place.offset attr.body with
      | none =>
        refine .inl fun a => ?_
        simp [withEntryFlags, hattr, hold]
      | some old => exact .inr ⟨place, attr, old, rfl, hattr, hold⟩

theorem withEntryFlags_again (a b : Access) (as : List Attribute) (place? : Option EntryPlace) :
    withEntryFlags b (withEntryFlags a as place?) place? = withEntryFlags b as place? := by
  rcases withEntryFlags_cases as place? with hkeep | ⟨place, attr, old, rfl, hattr, hold⟩
  · rw [hkeep]
  · have hlt := (List.getElem?_eq_some_iff.1 hattr).1
    have hnew : flagsAt place.offset (attr.withFlags place.offset a).body = some a :=
      flagsAt_setFlagsAt hold
    rw [withEntryFlags_of_flagsAt hattr hold, withEntryFlags_of_flagsAt hattr hold,
      withEntryFlags_of_flagsAt (List.getElem?_set_self hlt) hnew, List.set_set, Attribute.withFlags,
      Attribute.withFlags, Attribute.withFlags, setFlagsAt_setFlagsAt hold]

theorem map_set_eq {α β : Type} {f : α → β} {xs : List α} {n : Nat} {x y : α}
    (hx : xs[n]? = some x) (hf : f y = f x) : (xs.set n y).map f = xs.map f := by
  obtain ⟨hlt, rfl⟩ := List.getElem?_eq_some_iff.1 hx
  have hlt' : n < (xs.map f).length := by rwa [List.length_map]
  rw [List.map_set, hf, ← List.getElem_map f (h := hlt'), List.set_getElem_self]

theorem size_withEntryFlags (a : Access) (as : List Attribute) (place? : Option EntryPlace) :
    (withEntryFlags a as place?).map Attribute.size = as.map Attribute.size := by
  rcases withEntryFlags_cases as place? with hkeep | ⟨place, attr, old, rfl, hattr, hold⟩
  · rw [hkeep]
  · rw [withEntryFlags_of_flagsAt hattr hold]
    apply map_set_eq hattr
    exact congrArg (6 + ·) (take_setFlagsAt hold (Nat.zero_le place.offset)).1

def Method.withoutFlags (m : Method) : Method := { m with access := ⟨0⟩ }

namespace ClassFile

variable {c : ClassFile} {bs : Bytes}

/-- The class without a flag on it, in its own entry or on its methods. -/
def withoutFlags (c : ClassFile) : ClassFile := { c with
  access := ⟨0⟩
  methods := c.methods.map Method.withoutFlags
  attributes := withEntryFlags ⟨0⟩ c.attributes c.ownEntry }

theorem setInnerAccess_eq (c : ClassFile) (a : Access) : (c.setInnerAccess a).getD c =
    { c with attributes := withEntryFlags a c.attributes c.ownEntry } := by
  have hkeep : withEntryFlags a c.attributes c.ownEntry = c.attributes →
      c = { c with attributes := withEntryFlags a c.attributes c.ownEntry } := fun h => by rw [h]
  unfold setInnerAccess
  split
  · next hplace => exact hkeep (by rw [hplace]; rfl)
  · next place hplace =>
    split
    · next hattr => exact hkeep (by simp only [hplace, withEntryFlags, hattr])
    · next attr hattr =>
      split
      · next hold => exact hkeep (by simp [hplace, withEntryFlags, hattr, hold])
      · next old hold =>
        rw [Option.getD_some, hplace, withEntryFlags_of_flagsAt hattr hold, Attribute.withFlags]

theorem stripInner_attributes (c : ClassFile) : c.stripInner.attributes = c.attributes ∨
    ∃ a, c.stripInner.attributes = withEntryFlags a c.attributes c.ownEntry := by
  unfold stripInner
  split
  · split
    · next a _ _ => exact .inr ⟨a.withoutFinal, by rw [setInnerAccess_eq]⟩
    · exact .inl rfl
  · exact .inl rfl

theorem withoutFlags_strip (m : Method) : m.strip.withoutFlags = m.withoutFlags := by
  unfold Method.strip
  split <;> rfl

/-- An edit changes nothing but flags. -/
theorem withoutFlags_edit (c : ClassFile) (e : Edit) :
    (c.edit e).withoutFlags = c.withoutFlags := by
  cases e with
  | access a => rfl
  | innerAccess a =>
    rw [edit, setInnerAccess_eq]
    simp only [withoutFlags, withEntryFlags_again]
  | methodAccess n a =>
    rw [edit, setMethodAccess]
    split
    · rfl
    · next m hm =>
      have hsame : (c.methods.set n { m with access := a }).map Method.withoutFlags =
          c.methods.map Method.withoutFlags := map_set_eq hm rfl
      simp only [Option.getD_some, withoutFlags, hsame]
  | strip =>
    have hmethods : (c.methods.map Method.strip).map Method.withoutFlags =
        c.methods.map Method.withoutFlags := by
      rw [List.map_map]
      exact List.map_congr_left fun m _ => withoutFlags_strip m
    have hentry : withEntryFlags ⟨0⟩ c.stripInner.attributes c.ownEntry =
        withEntryFlags ⟨0⟩ c.attributes c.ownEntry := by
      rcases c.stripInner_attributes with hkeep | ⟨a, hset⟩
      · rw [hkeep]
      · rw [hset, withEntryFlags_again]
    rw [edit, strip_eq]
    simp only [withoutFlags, hmethods, hentry]

/-! ## Where flags stand -/

/-- At this offset stands one of the two bytes of flags: of those of the class, of a method or of
the own entry. -/
inductive FlagByte (c : ClassFile) : Nat → Prop where
  | own {i} (hi : i < 2) : FlagByte c (c.accessOffset + i)
  | method {n m i} (hm : c.methods[n]? = some m) (hi : i < 2) : FlagByte c (c.methodOffset n + i)
  | inner {place a i} (hplace : c.ownEntry = some place) (ha : c.innerAccess = some a)
    (hi : i < 2) : FlagByte c (c.placeOffset place + i)

theorem rowSize_congr {α : Type} {size : α → Nat} {xs ys : List α}
    (h : xs.map size = ys.map size) : rowSize size xs = rowSize size ys := by
  have hsum : ∀ zs : List α, rowSize size zs = (zs.map size).sum := by
    intro zs
    induction zs with
    | nil => rfl
    | cons z zs ih => rw [rowSize, ih, List.map_cons, List.sum_cons]
  rw [hsum, hsum, h]

theorem methodOffset_withoutFlags (c : ClassFile) (n : Nat) :
    c.withoutFlags.methodOffset n = c.methodOffset n := by
  have hrow : rowSize Method.size ((c.methods.map Method.withoutFlags).take n) =
      rowSize Method.size (c.methods.take n) := by
    apply rowSize_congr
    rw [← List.map_take, List.map_map]
    rfl
  rw [methodOffset, methodOffset, ← hrow]
  rfl

theorem placeOffset_withoutFlags (c : ClassFile) (place : EntryPlace) :
    c.withoutFlags.placeOffset place = c.placeOffset place := by
  have hmethods : rowSize Method.size (c.methods.map Method.withoutFlags) =
      rowSize Method.size c.methods := by
    apply rowSize_congr
    rw [List.map_map]
    rfl
  have hrow : rowSize Attribute.size
        ((withEntryFlags ⟨0⟩ c.attributes c.ownEntry).take place.number) =
      rowSize Attribute.size (c.attributes.take place.number) := by
    apply rowSize_congr
    rw [List.map_take, List.map_take, size_withEntryFlags]
  rw [placeOffset, placeOffset, attributesOffset, attributesOffset, ← hmethods, ← hrow]
  rfl

theorem innerAccess_withoutFlags (c : ClassFile) :
    c.withoutFlags.innerAccess = c.innerAccess.map fun _ => ⟨0⟩ := by
  have hsame : c.withoutFlags.innerAccess = ((c.setInnerAccess ⟨0⟩).getD c).innerAccess := by
    rw [setInnerAccess_eq]
    rfl
  rw [hsame]
  cases hset : c.setInnerAccess ⟨0⟩ with
  | none =>
    rw [Option.getD_none, (c.setInnerAccess_eq_none_iff ⟨0⟩).1 hset]
    rfl
  | some d =>
    have hinner : c.innerAccess ≠ none := by
      rw [Ne, ← c.setInnerAccess_eq_none_iff ⟨0⟩, hset]
      exact Option.some_ne_none d
    obtain ⟨old, hold⟩ := Option.ne_none_iff_exists'.1 hinner
    rw [Option.getD_some, innerAccess_setInnerAccess hset, hold]
    rfl

theorem flagByte_withoutFlags {o : Nat} : c.withoutFlags.FlagByte o ↔ c.FlagByte o := by
  refine ⟨fun h => ?_, fun h => ?_⟩
  · rcases h with hi | @⟨n, _, _, hm, hi⟩ | ⟨hplace, ha, hi⟩
    · exact .own hi
    · have hmap : c.methods[n]?.map Method.withoutFlags = some _ := (List.getElem?_map ..).symm.trans hm
      obtain ⟨m, hm, _⟩ := Option.map_eq_some_iff.1 hmap
      rw [methodOffset_withoutFlags]
      exact .method hm hi
    · rw [innerAccess_withoutFlags] at ha
      obtain ⟨old, hold, _⟩ := Option.map_eq_some_iff.1 ha
      rw [placeOffset_withoutFlags]
      exact .inner hplace hold hi
  · rcases h with hi | @⟨n, m, _, hm, hi⟩ | ⟨hplace, ha, hi⟩
    · exact .own hi
    · have hmap : c.withoutFlags.methods[n]? = some m.withoutFlags :=
        (List.getElem?_map ..).trans (congrArg (Option.map Method.withoutFlags) hm)
      rw [← methodOffset_withoutFlags]
      exact .method hmap hi
    · rw [← placeOffset_withoutFlags]
      exact .inner hplace (by rw [innerAccess_withoutFlags, ha]; rfl) hi

/-! ## What edits keep -/

theorem Consistent.edit (h : c.Consistent) (e : Edit) : (c.edit e).Consistent := by
  cases e with
  | access a => exact ⟨h.paired, h.texts, h.identified⟩
  | innerAccess a =>
    obtain ⟨slashed, hslashed, hname, hentry⟩ := h.identified
    rw [ClassFile.edit, setInnerAccess_eq]
    refine ⟨h.paired, h.texts, slashed, hslashed, hname, ?_⟩
    rcases withEntryFlags_cases c.attributes c.ownEntry with
      hkeep | ⟨place, attr, old, hplace, hattr, hold⟩
    · dsimp only
      rw [hkeep, hentry]
    · dsimp only
      rw [hplace] at hentry ⊢
      rw [withEntryFlags_of_flagsAt hattr hold]
      exact findOwnEntry_withFlags hentry hattr hold a
  | methodAccess n a =>
    rw [ClassFile.edit, setMethodAccess]
    split
    · exact h
    · next m hm =>
      refine ⟨h.paired, fun m' hm' => ?_, h.identified⟩
      rcases List.mem_or_eq_of_mem_set hm' with hold | rfl
      · exact h.texts m' hold
      · have htexts := h.texts m (List.mem_of_getElem? hm)
        exact ⟨htexts.name, htexts.descriptor⟩
  | strip => exact h.strip

/-- The bytes are as many, and others only where flags of the class stand. -/
structure SameButFlags (c : ClassFile) (old new : Bytes) : Prop where
  sameLength : new.length = old.length
  differ : ∀ o, new[o]? ≠ old[o]? → c.FlagByte o

namespace SameButFlags

variable {old mid new : Bytes}

theorem refl (c : ClassFile) (bs : Bytes) : c.SameButFlags bs bs := ⟨rfl, fun _ h => absurd rfl h⟩

theorem trans (h : c.SameButFlags old mid) (h' : c.SameButFlags mid new) :
    c.SameButFlags old new := by
  refine ⟨h'.sameLength.trans h.sameLength, fun o hne => ?_⟩
  by_cases hmid : new[o]? = mid[o]?
  · exact h.differ o (hmid ▸ hne)
  · exact h'.differ o hmid

theorem patch {offset : Nat} {was : Access} (h : flagsAt offset bs = some was)
    (hflags : ∀ i, i < 2 → c.FlagByte (offset + i)) (a : Access) :
    c.SameButFlags bs (setFlagsAt offset a bs) := by
  refine ⟨(take_setFlagsAt h (Nat.zero_le offset)).1, fun o hne => ?_⟩
  by_cases hfirst : o = offset
  · exact hfirst ▸ hflags 0 (by omega)
  · by_cases hsecond : o = offset + 1
    · exact hsecond ▸ hflags 1 (by omega)
    · exact absurd (getElem?_setFlagsAt h a hfirst hsecond) hne

end SameButFlags

theorem ClearsAt.flagByte {o : Nat} (h : c.ClearsAt o) : c.FlagByte o := by
  rcases h with _ | ⟨hm, _⟩ | ⟨hplace, ha, _⟩
  · exact .own (by omega)
  · exact .method hm (by omega)
  · exact .inner hplace ha (by omega)

theorem encode_edit (h : c.encode = .ok bs) (e : Edit) :
    ∃ bs', (c.edit e).encode = .ok bs' ∧ c.SameButFlags bs bs' := by
  cases e with
  | access a =>
    exact ⟨_, encode_setAccess h a, .patch (flagsAt_accessOffset h) (fun _ hi => .own hi) a⟩
  | innerAccess a =>
    rw [edit, setInnerAccess_eq]
    rcases withEntryFlags_cases c.attributes c.ownEntry with
      hkeep | ⟨place, attr, old, hplace, hattr, hold⟩
    · rw [hkeep]
      exact ⟨bs, h, .refl c bs⟩
    · have hinner : c.innerAccess = some old :=
        innerAccess_eq_some_iff.2 ⟨place, attr, hplace, hattr, hold⟩
      rw [hplace, withEntryFlags_of_flagsAt hattr hold]
      have hnew := encode_setInnerAccess h hattr hold a
      rw [hplace] at hnew
      exact ⟨_, hnew, .patch (flagsAt_placeOffset h hattr hold)
        (fun _ hi => .inner hplace hinner hi) a⟩
  | methodAccess n a =>
    rw [edit, setMethodAccess]
    split
    · exact ⟨bs, h, .refl c bs⟩
    · next m hm =>
      exact ⟨_, encode_setMethodAccess h hm a,
        .patch (flagsAt_methodOffset h hm) (fun _ hi => .method hm hi) a⟩
  | strip =>
    obtain ⟨bs', hbs', hdiffers⟩ := encode_strip h
    refine ⟨bs', hbs', hdiffers.sameLength, fun o hne => ?_⟩
    exact (mem_finalOffsets.1 ((hdiffers.ne_iff not_cleared_self).1 hne.symm)).flagByte

theorem editAll_keeps (h : c.Consistent) (hbs : c.encode = .ok bs) (edits : List Edit) :
    (c.editAll edits).Consistent ∧ (c.editAll edits).withoutFlags = c.withoutFlags ∧
      ∃ bs', (c.editAll edits).encode = .ok bs' ∧ c.SameButFlags bs bs' := by
  induction edits generalizing c bs with
  | nil => exact ⟨h, rfl, bs, hbs, .refl c bs⟩
  | cons e edits ih =>
    obtain ⟨mid, hmid, hfirst⟩ := encode_edit hbs e
    obtain ⟨hlast, hflags, bs', hbs', hrest⟩ := ih (h.edit e) hmid
    have hsame : (c.edit e).withoutFlags = c.withoutFlags := withoutFlags_edit c e
    refine ⟨hlast, hflags.trans hsame, bs', hbs', hfirst.trans ⟨hrest.sameLength, fun o hne => ?_⟩⟩
    -- The flags of the edited class stand where those of the class do.
    rw [← flagByte_withoutFlags, ← hsame, flagByte_withoutFlags]
    exact hrest.differ o hne

/-- Any edits of a class that was read leave one that can be written and is read back from what is
written, with the name and the tables that it had. What is written differs from what was read at
most where flags of the class stand. -/
theorem editAll_reads_back (h : ClassFile.decode bs = .ok c) (edits : List Edit) :
    ∃ bs', (c.editAll edits).encode = .ok bs' ∧ bs'.length = bs.length ∧
      ClassFile.decode bs' = .ok (c.editAll edits) ∧
      (c.editAll edits).name = c.name ∧ (c.editAll edits).package = c.package ∧
      (c.editAll edits).pool = c.pool ∧ (c.editAll edits).interfaces = c.interfaces ∧
      (c.editAll edits).fields = c.fields ∧
      (c.editAll edits).methods.map Method.withoutFlags = c.methods.map Method.withoutFlags ∧
      (c.editAll edits).ownEntry = c.ownEntry ∧
      (c.editAll edits).withoutFlags = c.withoutFlags ∧
      (∀ o, bs'[o]? ≠ bs[o]? → c.FlagByte o) ∧
      c.FlagsStandIn bs ∧ (c.editAll edits).FlagsStandIn bs' := by
  obtain ⟨hconsistent, hbs⟩ := decode_ok_iff.1 h
  obtain ⟨hedited, hflags, bs', hbs', hsame⟩ := editAll_keeps hconsistent hbs edits
  obtain ⟨_, _, hpool, _, _, _, hinterfaces, hfields, hmethods, _, hname, hentry⟩ :=
    (ClassFile.mk.injEq ..).mp hflags
  exact ⟨bs', hbs', hsame.sameLength, decode_ok_iff.2 ⟨hedited, hbs'⟩, hname,
    congrArg Dotted.packageOf hname, hpool, hinterfaces, hfields, hmethods, hentry, hflags,
    hsame.differ, flagsStandIn_of_encode hbs, flagsStandIn_of_encode hbs'⟩

/-- Every bit is set on the class in `sealedBytes`, in its own entry and on its method, and then it
is stripped. -/
theorem sealedBytes_edited :
    ClassFile.decode sealedBytes = .ok sealedClass ∧
    ∃ bs', (sealedClass.editAll [.access ⟨0xFFFF⟩, .innerAccess ⟨0xFFFF⟩, .methodAccess 0 ⟨0xFFFF⟩,
        .strip, .methodAccess 7 ⟨0⟩]).encode = .ok bs' ∧
      changedOffsets sealedBytes bs' = [51, 52, 63, 64, 87, 88] ∧
      ClassFile.decode bs' = .ok (sealedClass.editAll [.access ⟨0xFFFF⟩, .innerAccess ⟨0xFFFF⟩,
        .methodAccess 0 ⟨0xFFFF⟩, .strip, .methodAccess 7 ⟨0⟩]) := by
  refine ⟨decode_sealedBytes, ?_⟩
  obtain ⟨bs', hbs', _, hread, _⟩ := editAll_reads_back decode_sealedBytes
    [.access ⟨0xFFFF⟩, .innerAccess ⟨0xFFFF⟩, .methodAccess 0 ⟨0xFFFF⟩, .strip, .methodAccess 7 ⟨0⟩]
  refine ⟨bs', hbs', ?_, hread⟩
  obtain rfl := Except.ok.inj hbs'
  decide

end ClassFile
end Unseal
