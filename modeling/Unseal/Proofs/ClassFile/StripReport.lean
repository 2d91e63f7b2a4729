import Unseal.Proofs.ClassFile.Stripped
/-
  Strip report — what stripping changes on a class, and what it tells of it

  Stripping looks for `final` in three places: the flags of the class, those in its
  own entry and those of its methods. It clears the one bit where it finds it, on
  methods only beside `public`. This is so on every class, also on one that was
  edited until its own entry no longer lies in its attributes; then there are only
  two places. Nothing else on the class changes: of the bodies of the attributes at
  most one byte, the low byte of the flags in the own entry.

  What is proved:
    1. `attributes_strip` — the attributes of a stripped class are those that it had,
       but for the low byte of the flags in the own entry.
    2. `classStripped_iff`, `strip_eq_self_iff` — stripping reports the class exactly
       if its flags are changed, and nothing exactly if nothing is.
    3. `stripped_strip` — everything that stripping changes and reports.
-/

namespace Unseal

/-! ## Flags -/

theorem Method.isPublicFinal_iff {m : Method} : m.isPublicFinal = true ↔
    m.access.bits &&& 0x01 = 0x01 ∧ m.access.bits &&& 0x10 = 0x10 := by
  rw [isPublicFinal, Bool.and_eq_true]
  exact and_congr decide_eq_true_iff decide_eq_true_iff

theorem Attribute.withFlags_differs {attr : Attribute} {offset : Nat} {a : Access}
    (ha : flagsAt offset attr.body = some a) (hfinal : a.isFinal = true) :
    DiffersAt Cleared 0 [offset + 1] attr.body (attr.withFlags offset a.withoutFinal).body := by
  obtain ⟨head, tail, hbody, rfl⟩ := eq_append_of_flagsAt ha
  rw [withFlags, hbody, setFlagsAt_append]
  have hflags := withoutFinal_differs hfinal (0 + head.length)
  exact (hflags.between tail).congr rfl (by rw [Nat.zero_add])

namespace ClassFile

/-! ## The attributes -/

/-- An attribute and what became of it: nothing differs but the low byte of the flags in the own
entry, and that only if they are final. -/
structure SameButOwn (c : ClassFile) (i : Nat) (attr attr' : Attribute) : Prop where
  nameIndex : attr'.nameIndex = attr.nameIndex
  length : attr'.body.length = attr.body.length
  body : ∀ o, attr'.body[o]? ≠ attr.body[o]? →
    c.innerAccess.any Access.isFinal = true ∧
      ∃ place, c.ownEntry = some place ∧ place.number = i ∧ place.offset + 1 = o

theorem SameButOwn.refl (c : ClassFile) (i : Nat) (attr : Attribute) : c.SameButOwn i attr attr :=
  ⟨rfl, rfl, fun _ hne => absurd rfl hne⟩

theorem attributes_strip (c : ClassFile) :
    c.strip.1.attributes.length = c.attributes.length ∧
      ∀ i attr, c.attributes[i]? = some attr →
        ∃ attr', c.strip.1.attributes[i]? = some attr' ∧ c.SameButOwn i attr attr' := by
  have hattributes : c.strip.1.attributes = c.stripInner.attributes := by rw [strip_eq]
  rw [hattributes]
  rcases stripInner_cases c with ⟨hkeep, _⟩ | ⟨place, own, a, hplace, hown, ha, hfinal, _, hset⟩
  · rw [hkeep]
    exact ⟨rfl, fun i attr hattr => ⟨attr, hattr, SameButOwn.refl c i attr⟩⟩
  · rw [hset]
    refine ⟨List.length_set, ?_⟩
    intro i attr hattr
    by_cases hi : place.number = i
    · subst hi
      obtain rfl : own = attr := Option.some.inj (hown.symm.trans hattr)
      have hdiffers := Attribute.withFlags_differs ha hfinal
      have hinner : c.innerAccess = some a := innerAccess_eq_some_iff.2 ⟨place, own, hplace, hown, ha⟩
      refine ⟨own.withFlags place.offset a.withoutFinal, ?_, rfl, hdiffers.sameLength, ?_⟩
      · exact List.getElem?_set_self (List.getElem?_eq_some_iff.1 hattr).1
      · intro o hne
        refine ⟨by rw [hinner]; exact hfinal, place, hplace, rfl, ?_⟩
        apply Decidable.byContradiction
        intro hother
        apply hne
        apply hdiffers.kept
        rw [Nat.zero_add, List.mem_singleton]
        exact Ne.symm hother
    · exact ⟨attr, by rw [List.getElem?_set_ne hi, hattr], SameButOwn.refl c i attr⟩

/-! ## The class and its report -/

/-- Stripping reports nothing exactly if it changes nothing. -/
theorem strip_eq_self_iff (c : ClassFile) : c.strip.2.isEmpty = true ↔ c.strip.1 = c := by
  have hreport : c.strip.2 = c.stripSummary := rfl
  rw [hreport]
  refine ⟨?_, ?_⟩
  · intro hempty
    simp only [StripSummary.isEmpty, stripSummary, isFinal, Bool.and_eq_true, Bool.not_eq_true',
      Bool.or_eq_false_iff, List.isEmpty_iff, List.map_eq_nil_iff, List.filter_eq_nil_iff] at hempty
    obtain ⟨⟨haccess, hinner⟩, hmethods⟩ := hempty
    refine strip_eq_self haccess ?_ fun m hm => Bool.eq_false_iff.2 (hmethods m hm)
    cases h : c.innerAccess with
    | none => rfl
    | some a => rwa [h] at hinner
  · intro hsame
    have hnothing := c.stripSummary_strip
    rw [hsame] at hnothing
    rw [hnothing]
    rfl

/-- Stripping reports a change of the class exactly if one of its two sets of flags is changed. -/
theorem classStripped_iff (c : ClassFile) : c.strip.2.classStripped = true ↔
    c.strip.1.access ≠ c.access ∨ c.strip.1.innerAccess ≠ c.innerAccess := by
  have hinner : c.innerAccess.map Access.withoutFinal ≠ c.innerAccess ↔
      (c.innerAccess.map Access.isFinal).getD false = true := by
    cases c.innerAccess with
    | none => simp
    | some a =>
      rw [Option.map_some, ne_eq, Option.some.injEq]
      exact Access.withoutFinal_ne_self_iff
  rw [access_strip, innerAccess_strip, Access.withoutFinal_ne_self_iff, hinner]
  show c.isFinal = true ↔ _
  rw [isFinal, Bool.or_eq_true]

/-- The second class is the first without `final` on it and on its public methods, and the summary
tells where it was cleared. -/
structure Stripped (c d : ClassFile) (s : StripSummary) : Prop where
  notFinal : d.isFinal = false
  classStripped : s.classStripped = c.isFinal
  access : d.access.bits = c.access.bits &&& ~~~0x10
  innerAccess : d.innerAccess = c.innerAccess.map fun a => ⟨a.bits &&& ~~~0x10⟩
  methods : d.methods = c.methods.map fun m =>
    if m.access.bits &&& 0x01 = 0x01 ∧ m.access.bits &&& 0x10 = 0x10 then
      { m with access := ⟨m.access.bits &&& ~~~0x10⟩ }
    else m
  reported : s.methods = (c.methods.filter fun m =>
    m.access.bits &&& 0x01 = 0x01 ∧ m.access.bits &&& 0x10 = 0x10).map fun m => m.name ++ m.descriptor
  attributeCount : d.attributes.length = c.attributes.length
  attributes : ∀ i attr, c.attributes[i]? = some attr →
    ∃ attr', d.attributes[i]? = some attr' ∧ c.SameButOwn i attr attr'
  rest : d = { c with access := d.access, methods := d.methods, attributes := d.attributes }

/-- Stripping clears `final` where it reports it and nowhere else, and leaves nothing to strip. -/
theorem stripped_strip (c : ClassFile) : c.Stripped c.strip.1 c.strip.2 ∧
    (c.strip.2.classStripped = true ↔
      c.strip.1.access ≠ c.access ∨ c.strip.1.innerAccess ≠ c.innerAccess) ∧
    (c.strip.2.isEmpty = true ↔ c.strip.1 = c) ∧
    c.strip.1.strip = (c.strip.1, ⟨false, []⟩) := by
  obtain ⟨hcount, hattributes⟩ := c.attributes_strip
  refine ⟨?_, c.classStripped_iff, c.strip_eq_self_iff, Prod.ext c.strip_strip c.stripSummary_strip⟩
  refine ⟨?_, rfl, ?_, c.innerAccess_strip, ?_, ?_, hcount, hattributes, ?_⟩
  · exact congrArg StripSummary.classStripped c.stripSummary_strip
  · rw [access_strip]
    rfl
  · have hmethods : c.strip.1.methods = c.methods.map Method.strip := by rw [strip_eq]
    rw [hmethods]
    apply List.map_congr_left
    intro m _
    simp only [Method.strip, Method.isPublicFinal_iff]
    rfl
  · show (c.methods.filter Method.isPublicFinal).map Method.signature = _
    have hsame : Method.isPublicFinal = fun m : Method =>
        decide (m.access.bits &&& 0x01 = 0x01 ∧ m.access.bits &&& 0x10 = 0x10) := by
      funext m
      rw [Bool.eq_iff_iff, Method.isPublicFinal_iff, decide_eq_true_iff]
    rw [hsame]
    rfl
  · rw [strip_eq]

/-- Where the own entry lies in no attribute, the flags of the class and of its methods are left. -/
example : ({ sealedClass with attributes := [] }).strip.2 = ⟨true, ["m()V"]⟩ ∧
    ({ sealedClass with attributes := [] }).innerAccess = none := by decide

end ClassFile

end Unseal
