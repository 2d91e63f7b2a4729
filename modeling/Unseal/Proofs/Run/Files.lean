import Unseal.Run.Files
import Unseal.Proofs.Results
import Unseal.Proofs.Revision
/-
  Files of a run — what is written for a file

  For a file there is one list of bytes that a run means to write (`delivered`):
  the revised bytes of a class file that is understood, and what was read of any
  other. A run in which no writing fails writes just this, whatever the store is
  that it reads from and writes to.

  What is proved:
    1. `delivered_ne` — the bytes are others than those read only of a class file
       that is understood, included, and has a final flag to clear.
    2. `delivers_delivered` — the bytes of a class file are revised if it is
       understood, and those of any other file are the ones that were read.
    3. `FileStore.process_ok` — a file that is done without a failed writing was
       read, and the delivered bytes were written for it.
    4. `FileStore.processAll_keeps` — what each writing keeps is kept by all files
       together, even if one of them cannot be done.
    5. `FileStore.process_fails`, `FileStore.processAll_fails` — a file is not done if
       it cannot be read or written, and then not all files are.
-/

namespace Unseal

/-! ## Progress -/

namespace Progress

variable {σ ε α β : Type} {s : σ} {events : List Event}

theorem andThen_ok_iff {p : Progress σ ε α} {f : σ → α → Progress σ ε β} {b : β} :
    p.andThen f = ⟨s, events, .ok b⟩ ↔ ∃ mid told a more, p = ⟨mid, told, .ok a⟩ ∧
      f mid a = ⟨s, more, .ok b⟩ ∧ events = told ++ more := by
  obtain ⟨mid, told, result⟩ := p
  cases result with
  | error fault => simp [andThen]
  | ok a =>
    refine ⟨?_, ?_⟩
    · intro h
      simp only [andThen, Progress.mk.injEq] at h
      obtain ⟨rfl, rfl, hb⟩ := h
      exact ⟨mid, told, a, (f mid a).events, rfl, by rw [← hb], rfl⟩
    · intro h
      obtain ⟨mid', told', a', more', hp, hf', rfl⟩ := h
      cases hp
      simp only [andThen, hf']

theorem mapBoth_ok_iff {ε' : Type} {f : ε → ε'} {g : α → β} {p : Progress σ ε α} {b : β} :
    p.mapBoth f g = ⟨s, events, .ok b⟩ ↔ ∃ a, p = ⟨s, events, .ok a⟩ ∧ g a = b := by
  obtain ⟨mid, told, result⟩ := p
  cases result with
  | error fault =>
    refine ⟨?_, ?_⟩
    · intro h
      cases h
    · intro h
      obtain ⟨_, h, _⟩ := h
      cases h
  | ok a =>
    refine ⟨?_, ?_⟩
    · intro h
      cases h
      exact ⟨a, rfl, rfl⟩
    · intro h
      obtain ⟨_, h, rfl⟩ := h
      cases h
      rfl

theorem andThen_keeps {P : σ → Prop} {p : Progress σ ε α} {f : σ → α → Progress σ ε β}
    (hp : P p.state) (hf : ∀ s a, P s → P (f s a).state) : P (p.andThen f).state := by
  obtain ⟨mid, told, result⟩ := p
  cases result with
  | error fault => exact hp
  | ok a => exact hf mid a hp

end Progress

/-! ## Delivered bytes -/

/-- The bytes that are meant to be written for a file of which these were read. -/
def delivered (rules : Rules) (kind : EntryKind) (read : Bytes) : Bytes :=
  match kind, revise rules read with
  | .classFile, .ok r => r.bytes
  | _, _ => read

theorem finalOffsets_ne_nil {c : ClassFile} (h : c.finalOffsets ≠ []) :
    c.isFinal = true ∨ ∃ m ∈ c.methods, m.isPublicFinal = true := by
  have hsummary := mt stripSummary_isEmpty_iff.1 h
  cases hfinal : c.isFinal with
  | true => exact .inl rfl
  | false =>
    refine .inr (Decidable.byContradiction fun hnone => hsummary ?_)
    have hmethods : c.methods.filter Method.isPublicFinal = [] :=
      List.filter_eq_nil_iff.2 fun m hm hpublic => hnone ⟨m, hm, hpublic⟩
    simp [StripSummary.isEmpty, ClassFile.stripSummary, hfinal, hmethods]

/-- Other bytes than those read are only written for a class file that is understood and included
and has a final flag to clear. -/
theorem delivered_ne {rules : Rules} {kind : EntryKind} {read : Bytes}
    (h : delivered rules kind read ≠ read) :
    kind = .classFile ∧ ∃ c, ClassFile.decode read = .ok c ∧
      (rules.decide c.name c.package).isIncluded = true ∧
      (c.isFinal = true ∨ ∃ m ∈ c.methods, m.isPublicFinal = true) := by
  unfold delivered at h
  split at h
  · next r hr =>
    obtain ⟨hc, hd, _, _⟩ := revise_ok_iff.1 hr
    have hoffsets := mt (bytes_eq_iff hr).2 h
    unfold ClassFile.decidedOffsets at hoffsets
    split at hoffsets
    · next hincluded =>
      exact ⟨rfl, r.source, hc, hd ▸ hincluded, finalOffsets_ne_nil hoffsets⟩
    · exact absurd rfl hoffsets
  · exact absurd rfl h

/-- What is to be written for a file of this name, of which these bytes were read. -/
structure Delivers (rules : Rules) (n : Name) (read written : Bytes) : Prop where
  plain : n.isClassFile = false → written = read
  notUnderstood : (∀ c, ClassFile.decode read ≠ .ok c) → written = read
  understood : n.isClassFile = true → ∀ c, ClassFile.decode read = .ok c →
    ∃ r, revise rules read = .ok r ∧ written = r.bytes
  changed : written ≠ read → n.isClassFile = true ∧ ∃ c, ClassFile.decode read = .ok c ∧
    (rules.decide c.name c.package).isIncluded = true ∧
    (c.isFinal = true ∨ ∃ m ∈ c.methods, m.isPublicFinal = true)

theorem delivers_delivered (rules : Rules) (n : Name) (read : Bytes) :
    Delivers rules n read (delivered rules (.ofFile n) read) := by
  have hkind : EntryKind.ofFile n = .classFile ↔ n.isClassFile = true := by
    rw [EntryKind.ofFile]
    split <;> simp [*]
  refine ⟨fun hplain => ?_, fun hnone => ?_, fun hclass c hc => ?_, fun hne => ?_⟩
  · apply Decidable.byContradiction
    intro hne
    have hclass := hkind.1 (delivered_ne hne).1
    rw [hplain] at hclass
    cases hclass
  · apply Decidable.byContradiction
    intro hne
    obtain ⟨_, c, hc, _⟩ := delivered_ne hne
    exact hnone c hc
  · obtain ⟨r, hr⟩ := revise_isOk_iff.2 ⟨c, hc⟩
    refine ⟨r, hr, ?_⟩
    simp only [delivered, hkind.2 hclass, hr]
  · obtain ⟨hclass, hc⟩ := delivered_ne hne
    exact ⟨hkind.1 hclass, hc⟩

namespace FileStore

variable {σ : Type} {store : FileStore σ} {rules : Rules} {input output source target : Path}
  {path : List Name} {s s' : σ} {events : List Event} {outcome : Outcome} {bytes : Bytes}

theorem copy_ok {told : Event} {outcome' : Outcome}
    (h : store.copy s target bytes told outcome' = ⟨s', events, .ok outcome⟩) :
    store.write s target bytes = (s', .ok ()) := by
  unfold copy at h
  split at h
  · next hwrite =>
    cases h
    exact hwrite
  · cases h

theorem writeClass_ok {revised read : Bytes} {fault : Option WriteFault}
    (h : store.writeClass s target revised read = ⟨s', events, .ok fault⟩)
    (hwritten : ∀ fault target, .writeFailed fault target ∉ events) :
    store.write s target revised = (s', .ok ()) := by
  unfold writeClass at h
  split at h
  · next hwrite =>
    cases h
    exact hwrite
  · next first _ =>
    split at h
    -- The second writing is told of, and no such event was told.
    · cases h
      exact absurd (List.mem_singleton_self _) (hwritten first target)
    · cases h

theorem conclude_state {r : Revision} {fault : Option WriteFault}
    (h : conclude s path r fault = ⟨s', events, .ok outcome⟩) : s' = s := by
  unfold conclude at h
  split at h
  · cases h
    rfl
  · split at h <;> cases h <;> rfl

theorem processClass_ok
    (h : store.processClass rules s source target path bytes = ⟨s', events, .ok outcome⟩)
    (hwritten : ∀ fault target, .writeFailed fault target ∉ events) :
    store.write s target (delivered rules .classFile bytes) = (s', .ok ()) := by
  unfold processClass at h
  unfold delivered
  split at h
  · next fault hfault =>
    rw [hfault]
    exact copy_ok h
  · next r hr =>
    rw [hr]
    simp only [Progress.andThen_ok_iff] at h
    obtain ⟨last, _, fault, _, ⟨mid, _, _, told, hmid, hwrite, rfl⟩, hconclude, rfl⟩ := h
    cases hmid
    obtain rfl := conclude_state hconclude
    apply writeClass_ok hwrite
    intro fault target hmem
    apply hwritten fault target
    exact List.mem_append_left _ (List.mem_append_right _ hmem)

/-- A file that is done without a failed writing was read, and the delivered bytes were written
for it. -/
theorem process_ok {e : Entry}
    (h : store.process rules input output s e = ⟨s', events, .ok outcome⟩)
    (hwritten : ∀ fault target, .writeFailed fault target ∉ events) :
    ∃ bytes, store.read s (input.extend e.path) = .ok bytes ∧
      store.write s (output.extend e.path) (delivered rules e.kind bytes) = (s', .ok ()) := by
  unfold process at h
  dsimp only at h
  split at h
  · cases h
  · next bytes hread =>
    refine ⟨bytes, hread, ?_⟩
    split at h
    · next hclass =>
      rw [hclass]
      exact processClass_ok h hwritten
    · next hclass =>
      have hplain : delivered rules e.kind bytes = bytes := by
        unfold delivered
        split
        · next hkind _ => exact absurd hkind hclass
        · rfl
      rw [hplain]
      exact copy_ok h

theorem processAll_cons {e : Entry} {rest : List Entry} {outcomes : List Outcome}
    (h : store.processAll rules input output s (e :: rest) = ⟨s', events, .ok outcomes⟩)
    (hwritten : ∀ fault target, .writeFailed fault target ∉ events) :
    ∃ mid bytes more outcomes', store.read s (input.extend e.path) = .ok bytes ∧
      store.write s (output.extend e.path) (delivered rules e.kind bytes) = (mid, .ok ()) ∧
      store.processAll rules input output mid rest = ⟨s', more, .ok outcomes'⟩ ∧
      ∀ fault target, .writeFailed fault target ∉ more := by
  rw [processAll, Progress.andThen_ok_iff] at h
  obtain ⟨mid, told, outcome, more, hfile, hrest, rfl⟩ := h
  obtain ⟨outcomes', hrest, _⟩ := Progress.mapBoth_ok_iff.1 hrest
  obtain ⟨bytes, hread, hwrite⟩ := process_ok hfile fun fault target hmem =>
    hwritten fault target (List.mem_append_left more hmem)
  exact ⟨mid, bytes, more, outcomes', hread, hwrite, hrest, fun fault target hmem =>
    hwritten fault target (List.mem_append_right told hmem)⟩

/-! ## What is kept -/

section
variable {P : σ → Prop} (hwrite : ∀ s content, P s → P (store.write s target content).1) (hs : P s)
include hwrite hs

theorem copy_keeps (told : Event) (outcome : Outcome) :
    P (store.copy s target bytes told outcome).state := by
  have hmid := hwrite s bytes hs
  unfold copy
  split <;> next hdone => rwa [hdone] at hmid

theorem writeClass_keeps (revised : Bytes) : P (store.writeClass s target revised bytes).state := by
  have hmid := hwrite s revised hs
  unfold writeClass
  split
  · next hdone => rwa [hdone] at hmid
  · next hdone =>
    rw [hdone] at hmid
    have hlast := hwrite _ bytes hmid
    split <;> next hagain => rwa [hagain] at hlast

theorem processClass_keeps : P (store.processClass rules s source target path bytes).state := by
  unfold processClass
  split
  · exact copy_keeps hwrite hs _ _
  · next r _ =>
    apply Progress.andThen_keeps
    · exact Progress.andThen_keeps hs fun _ _ _ => writeClass_keeps hwrite hs r.bytes
    · intro s fault hs
      unfold conclude
      split
      · exact hs
      · split <;> exact hs

end

theorem process_keeps {P : σ → Prop} {e : Entry}
    (hwrite : ∀ s content, P s → P (store.write s (output.extend e.path) content).1) (hs : P s) :
    P (store.process rules input output s e).state := by
  unfold process
  dsimp only
  split
  · exact hs
  · split
    · exact processClass_keeps hwrite hs
    · exact copy_keeps hwrite hs _ _

theorem processAll_keeps {P : σ → Prop} {files : List Entry}
    (hwrite : ∀ e ∈ files, ∀ s content, P s → P (store.write s (output.extend e.path) content).1)
    (hs : P s) : P (store.processAll rules input output s files).state := by
  induction files generalizing s with
  | nil => exact hs
  | cons e rest ih =>
    apply Progress.andThen_keeps
    · exact process_keeps (hwrite e List.mem_cons_self) hs
    · intro s outcome hs
      exact ih (fun e he => hwrite e (List.mem_cons_of_mem _ he)) hs

/-! ## What is not done -/

/-- A file is not done if it cannot be read, or if nothing can be written for it. -/
theorem process_fails {e : Entry} (h : (∀ bytes, store.read s (input.extend e.path) ≠ .ok bytes) ∨
      ∀ s content, ∃ s' fault, store.write s (output.extend e.path) content = (s', .error fault)) :
    ∃ fault, (store.process rules input output s e).result = .error fault := by
  unfold process
  dsimp only
  split
  · exact ⟨_, rfl⟩
  · next bytes hread =>
    have hwrite := h.resolve_left fun hnone => hnone bytes hread
    have hcopy : ∀ told outcome, ∃ fault,
        (store.copy s (output.extend e.path) bytes told outcome).result = .error fault := by
      intro told outcome
      obtain ⟨s', fault, hfailed⟩ := hwrite s bytes
      exact ⟨.fileNotWritten fault, by rw [copy, hfailed]⟩
    split
    · unfold processClass
      split
      · exact hcopy _ _
      · next r _ =>
        obtain ⟨mid, first, hfirst⟩ := hwrite s r.bytes
        obtain ⟨s', second, hsecond⟩ := hwrite mid bytes
        refine ⟨.classNotWritten first second, ?_⟩
        simp only [Progress.andThen, writeClass, hfirst, hsecond]
    · exact hcopy _ _

theorem processAll_fails {files : List Entry} {e : Entry} (he : e ∈ files)
    (hfail : ∀ s, ∃ fault, (store.process rules input output s e).result = .error fault) :
    ∃ fault, (store.processAll rules input output s files).result = .error fault := by
  induction files generalizing s with
  | nil => cases he
  | cons first rest ih =>
    obtain ⟨done, hdone⟩ : ∃ done, done = store.process rules input output s first := ⟨_, rfl⟩
    obtain ⟨mid, told, result⟩ := done
    simp only [processAll, ← hdone, Progress.andThen]
    cases result with
    | error fault => exact ⟨fault, rfl⟩
    | ok outcome =>
      rcases List.mem_cons.1 he with rfl | he
      · obtain ⟨fault, hfault⟩ := hfail s
        rw [← hdone] at hfault
        cases hfault
      · obtain ⟨fault, hfault⟩ := ih he (s := mid)
        refine ⟨fault, ?_⟩
        simp only [Progress.mapBoth, hfault]
        rfl

end FileStore

end Unseal
