import Unseal.Revision
import Unseal.Proofs.ClassFile.Clearing
import Unseal.Proofs.ClassFile.Faults
import Unseal.Proofs.ClassFile.Stripped
/-
  Revisions — what the rules do to the bytes of a class

  A revision reads a class, strips it when the rules include it, and writes it
  again. A class that was read can be written, stripped or not, so a revision
  fails only where reading fails; and its bytes are those it was given but for
  the bits that it reports.

  A revision keeps the name of the class and with it the decision of the rules.
  A class that they do not include is written as it was. One that they include
  is written stripped; what is written reads back as the stripped class, on which
  nothing is left to clear.

  What is proved:
    1. `revise_isOk_iff` — what can be read can be revised.
    2. `revise_differs` — the bytes of a revision differ from those it was made
       from at the final flags of the class, and only if the rules include it.
    3. `revise_frame` — the same about single offsets, counted against the report.
    4. `decode_applyDecision` — what a revision writes reads back as the class
       that it wrote.
    5. `applyDecision_again` — a decision applied to a class twice is applied to
       it once.
    6. `revise_settles` — a revision fails only where reading does, with a fault of
       reading, and a second one changes nothing.
-/

namespace Unseal

/-- The offsets at which a decision changes the bytes of a class. -/
def ClassFile.decidedOffsets (c : ClassFile) (d : Decision) : List Nat :=
  if d.isIncluded then c.finalOffsets else []

theorem encode_applyDecision {c : ClassFile} {bs : Bytes} (h : c.encode = .ok bs) (d : Decision) :
    ∃ bs', (c.applyDecision d).1.encode = .ok bs' ∧
      DiffersAt Cleared 0 (c.decidedOffsets d) bs bs' := by
  unfold ClassFile.applyDecision ClassFile.decidedOffsets
  split
  · exact ClassFile.encode_strip h
  · exact ⟨bs, h, DiffersAt.refl 0 bs⟩

theorem revise_ok_iff {rules : Rules} {bs : Bytes} {r : Revision} :
    revise rules bs = .ok r ↔ ClassFile.decode bs = .ok r.source ∧
      r.decision = rules.decide r.source.name r.source.package ∧
      r.summary = (r.source.applyDecision r.decision).2 ∧
      (r.source.applyDecision r.decision).1.encode = .ok r.bytes := by
  unfold revise
  refine ⟨?_, ?_⟩
  · intro h
    split at h
    · cases h
    · next c hc =>
      dsimp only at h
      split at h
      · cases h
      · next bytes hbytes =>
        cases h
        exact ⟨hc, rfl, rfl, hbytes⟩
  · intro h
    obtain ⟨hc, hd, hs, hb⟩ := h
    obtain ⟨source, decision, summary, bytes⟩ := r
    dsimp only at hc hd hs hb
    subst hd hs
    simp only [hc, hb]

theorem revise_isOk_iff {rules : Rules} {bs : Bytes} :
    (∃ r, revise rules bs = .ok r) ↔ ∃ c, ClassFile.decode bs = .ok c := by
  refine ⟨?_, ?_⟩
  · intro h
    obtain ⟨r, h⟩ := h
    exact ⟨r.source, (revise_ok_iff.1 h).1⟩
  · intro h
    obtain ⟨c, hc⟩ := h
    obtain ⟨d, hd⟩ : ∃ d, d = rules.decide c.name c.package := ⟨_, rfl⟩
    obtain ⟨bytes, hbytes, _⟩ := encode_applyDecision (decode_ok_iff.1 hc).2 d
    exact ⟨⟨c, d, (c.applyDecision d).2, bytes⟩, revise_ok_iff.2 ⟨hc, hd, rfl, hbytes⟩⟩

theorem revise_error_iff {rules : Rules} {bs : Bytes} {fault : ClassFault} :
    revise rules bs = .error fault ↔ ClassFile.decode bs = .error fault := by
  cases hread : ClassFile.decode bs with
  | error e =>
    simp [revise, hread]
  | ok c =>
    obtain ⟨r, hr⟩ : ∃ r, revise rules bs = .ok r := revise_isOk_iff.2 ⟨c, hread⟩
    simp [hr]

/-- The bytes of a revision differ from those it was made from at the decided offsets. -/
theorem revise_differs {rules : Rules} {bs : Bytes} {r : Revision} (h : revise rules bs = .ok r) :
    DiffersAt Cleared 0 (r.source.decidedOffsets r.decision) bs r.bytes := by
  obtain ⟨hc, _, _, hb⟩ := revise_ok_iff.1 h
  obtain ⟨bytes, hbytes, hdiffers⟩ := encode_applyDecision (decode_ok_iff.1 hc).2 r.decision
  obtain rfl : bytes = r.bytes := Except.ok.inj (hbytes.symm.trans hb)
  exact hdiffers

theorem bytes_eq_iff {rules : Rules} {bs : Bytes} {r : Revision} (h : revise rules bs = .ok r) :
    r.bytes = bs ↔ r.source.decidedOffsets r.decision = [] := by
  have hdiffers := revise_differs h
  refine ⟨?_, ?_⟩
  · intro heq
    apply List.eq_nil_iff_forall_not_mem.2
    intro o ho
    exact (hdiffers.ne_iff not_cleared_self).2 ho (by rw [heq])
  · intro hnil
    rw [hnil] at hdiffers
    exact hdiffers.eq_of_nil

theorem stripSummary_isEmpty_iff {c : ClassFile} :
    c.stripSummary.isEmpty = true ↔ c.finalOffsets = [] := by
  have hstripped : c.stripSummary.classStripped =
      (c.access.isFinal || c.innerAccess.any Access.isFinal) := by
    rw [ClassFile.stripSummary, ClassFile.isFinal]
    cases c.innerAccess <;> rfl
  rw [← List.length_eq_zero_iff, c.length_finalOffsets, StripSummary.isEmpty, hstripped]
  generalize c.stripSummary.methods = ms
  cases c.access.isFinal <;> cases c.innerAccess.any Access.isFinal <;> cases ms <;> simp

/-- A revision changes nothing but the bits of `final` that it reports. -/
theorem revise_frame {rules : Rules} {bs : Bytes} {r : Revision} (h : revise rules bs = .ok r) :
    ClassFile.decode bs = .ok r.source ∧ r.source.FlagsStandIn bs ∧
    r.bytes.length = bs.length ∧
    (r.decision.isIncluded = false → r.summary = none ∧ r.bytes = bs) ∧
    (r.decision.isIncluded = true →
      (∀ o, bs[o]? ≠ r.bytes[o]? ↔ r.source.ClearsAt o) ∧
      (∀ o, r.source.ClearsAt o → ∃ v w, bs[o]? = some v ∧ r.bytes[o]? = some w ∧ Cleared v w) ∧
      ∃ s, r.summary = some s ∧
        (changedOffsets bs r.bytes).length = s.methods.length + r.source.access.isFinal.toNat +
          (r.source.innerAccess.any Access.isFinal).toNat) ∧
    (r.bytes = bs ↔ ∀ s, r.summary = some s → s.isEmpty = true) := by
  obtain ⟨hc, _, hs, _⟩ := revise_ok_iff.1 h
  have hdiffers := revise_differs h
  have hsame := bytes_eq_iff h
  refine ⟨hc, flagsStandIn_of_encode (decode_ok_iff.1 hc).2, hdiffers.sameLength, ?_⟩
  cases hd : r.decision.isIncluded with
  | false =>
    have hoffsets : r.source.decidedOffsets r.decision = [] := by
      simp [ClassFile.decidedOffsets, hd]
    have hsummary : r.summary = none := by
      rw [hs]
      simp [ClassFile.applyDecision, hd]
    have hbytes := hsame.2 hoffsets
    refine ⟨fun _ => ⟨hsummary, hbytes⟩, by simp, ?_⟩
    simp [hbytes, hsummary]
  | true =>
    have hoffsets : r.source.decidedOffsets r.decision = r.source.finalOffsets := by
      simp [ClassFile.decidedOffsets, hd]
    have hsummary : r.summary = some r.source.stripSummary := by
      rw [hs]
      simp [ClassFile.applyDecision, hd, ClassFile.strip]
    rw [hoffsets] at hdiffers hsame
    refine ⟨by simp, fun _ => ⟨?_, ?_, _, hsummary, ?_⟩, ?_⟩
    · intro o
      rw [hdiffers.ne_iff not_cleared_self, ClassFile.mem_finalOffsets]
    · intro o ho
      obtain ⟨i, v, w, rfl, hv, hw, hcleared⟩ :=
        hdiffers.changed o (ClassFile.mem_finalOffsets.2 ho)
      rw [Nat.zero_add]
      exact ⟨v, w, hv, hw, hcleared⟩
    · rw [hdiffers.changedOffsets_eq not_cleared_self, ClassFile.length_finalOffsets]
    · rw [hsame, ← stripSummary_isEmpty_iff, hsummary]
      simp

/-- `sealedBytes` without `final` on the class, on its method and in its own entry. -/
def openedBytes : Bytes := ((sealedBytes.set 52 0x21).set 64 0x01).set 88 0x09

theorem revise_sealedBytes : revise { Rules.none with classes := ["A"] } sealedBytes =
    .ok ⟨sealedClass, .includedClass, some ⟨true, ["m()V"]⟩, openedBytes⟩ := rfl

theorem sealedBytes_frame :
    revise { Rules.none with classes := ["A"] } sealedBytes =
      .ok ⟨sealedClass, .includedClass, some ⟨true, ["m()V"]⟩, openedBytes⟩ ∧
    changedOffsets sealedBytes openedBytes = [52, 64, 88] ∧
    ∀ o, sealedBytes[o]? ≠ openedBytes[o]? ↔ sealedClass.ClearsAt o := by
  refine ⟨revise_sealedBytes, by decide, ?_⟩
  exact ((revise_frame revise_sealedBytes).2.2.2.2.1 rfl).1

/-! ## Second revisions -/

/-- What is written for a decision reads back as it was written. -/
theorem decode_applyDecision {c : ClassFile} {bs bs' : Bytes} {d : Decision}
    (h : ClassFile.decode bs = .ok c) (hwritten : (c.applyDecision d).1.encode = .ok bs') :
    ClassFile.decode bs' = .ok (c.applyDecision d).1 := by
  have hconsistent : c.Consistent := (decode_ok_iff.1 h).1
  apply decode_ok_iff.2
  refine ⟨?_, hwritten⟩
  unfold ClassFile.applyDecision
  split
  · exact hconsistent.strip
  · exact hconsistent

theorem name_applyDecision (c : ClassFile) (d : Decision) : (c.applyDecision d).1.name = c.name := by
  unfold ClassFile.applyDecision
  split
  · exact c.name_strip
  · rfl

/-- A decision applied again writes the class that is there and clears nothing. -/
theorem applyDecision_again (c : ClassFile) (d : Decision) :
    (c.applyDecision d).1.applyDecision d =
      ((c.applyDecision d).1, (c.applyDecision d).2.map fun _ => ⟨false, []⟩) := by
  unfold ClassFile.applyDecision
  split
  · refine Prod.ext c.strip_strip ?_
    exact congrArg some c.stripSummary_strip
  · rfl

theorem revise_again {rules : Rules} {bs : Bytes} {r : Revision} (h : revise rules bs = .ok r) :
    revise rules r.bytes = .ok ⟨(r.source.applyDecision r.decision).1, r.decision,
      r.summary.map fun _ => ⟨false, []⟩, r.bytes⟩ := by
  obtain ⟨hread, hdecision, hsummary, hwritten⟩ := revise_ok_iff.1 h
  have hname : (r.source.applyDecision r.decision).1.name = r.source.name :=
    name_applyDecision r.source r.decision
  apply revise_ok_iff.2
  refine ⟨decode_applyDecision hread hwritten, ?_, ?_, ?_⟩
  · rw [ClassFile.package, hname]
    exact hdecision
  · rw [applyDecision_again, hsummary]
  · rw [applyDecision_again]
    exact hwritten

/-- A revision fails where reading fails, and a second one finds nothing to do. -/
theorem revise_settles (rules : Rules) (bs : Bytes) :
    (∀ fault, revise rules bs = .error fault ↔ ClassFile.decode bs = .error fault) ∧
    (∀ what n, revise rules bs ≠ .error (.tooMany what n)) ∧
    ∀ r, revise rules bs = .ok r → ∃ again, revise rules r.bytes = .ok again ∧
      again.className = r.className ∧ again.decision = r.decision ∧ again.bytes = r.bytes ∧
      (r.decision.isIncluded = false → again.summary = none) ∧
      (r.decision.isIncluded = true →
        (∃ s, again.summary = some s ∧ s.isEmpty = true) ∧
        ∃ c, ClassFile.decode r.bytes = .ok c ∧ c.access.isFinal = false ∧
          c.innerAccess.any Access.isFinal = false ∧ ∀ m ∈ c.methods, m.isPublicFinal = false) := by
  refine ⟨fun fault => revise_error_iff, ?_, ?_⟩
  · intro what n h
    exact decode_fault (revise_error_iff.1 h)
  · intro r h
    obtain ⟨hread, _, hsummary, hwritten⟩ := revise_ok_iff.1 h
    refine ⟨_, revise_again h, name_applyDecision r.source r.decision, rfl, rfl, ?_, ?_⟩
    · intro hleft
      simp [hsummary, ClassFile.applyDecision, hleft]
    · intro hincluded
      have hstripped : r.source.applyDecision r.decision =
          (r.source.strip.1, some r.source.stripSummary) := by
        rw [ClassFile.applyDecision, if_pos hincluded]
        rfl
      have hback : ClassFile.decode r.bytes = .ok r.source.strip.1 := by
        have h := decode_applyDecision hread hwritten
        rwa [hstripped] at h
      obtain ⟨haccess, hinner⟩ := r.source.isFinal_strip
      refine ⟨⟨⟨false, []⟩, ?_, rfl⟩, _, hback, haccess, hinner, ?_⟩
      · rw [hsummary, hstripped]
        rfl
      · intro m hm
        exact ClassFile.isPublicFinal_strip hm

/-- A second revision of `sealedBytes` finds the class of the first, and clears nothing on it. -/
theorem sealedBytes_settle :
    revise { Rules.none with classes := ["A"] } sealedBytes =
      .ok ⟨sealedClass, .includedClass, some ⟨true, ["m()V"]⟩, openedBytes⟩ ∧
    ∃ again, revise { Rules.none with classes := ["A"] } openedBytes = .ok again ∧
      again.className = "A" ∧ again.decision = .includedClass ∧ again.bytes = openedBytes ∧
      ∃ s, again.summary = some s ∧ s.isEmpty = true := by
  refine ⟨revise_sealedBytes, ?_⟩
  obtain ⟨again, hagain, hname, hdecision, hbytes, _, hincluded⟩ :=
    (revise_settles _ _).2.2 _ revise_sealedBytes
  exact ⟨again, hagain, hname, hdecision, hbytes, (hincluded rfl).1⟩

end Unseal
