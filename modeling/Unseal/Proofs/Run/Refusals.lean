import Unseal.Proofs.FileSystem.Parts
import Unseal.Proofs.Run.Files
/-
  Refusals — what becomes of files when writings fail

  Any writing can fail here, each for a reason of its own, and one that fails can
  leave anything at its path. Of the store no more is assumed than that a writing
  which does not fail is read back, and that no writing is seen at another path. A
  file is then done by one writing or, if it is a class whose revised bytes are
  refused, by two; it is given up if the only or the second of them fails. This is
  said by relations between what the store was and what it has become (`Does`,
  `GivesUp`), which say of each writing whether it failed.

  What is proved:
    1. `process_ok_iff`, `process_error_iff` — what is done for one file.
    2. `processAll_ok_iff`, `processAll_error_iff` — all files are done one after the
       other, or all before the first that is given up.
    3. `processAll_failsOpen` — what is read back of every file when all are done.
-/

namespace Unseal

/-- What a class that was revised is reported as. -/
def Revision.outcome (r : Revision) (path : List Name) : Outcome :=
  match r.summary with
  | some summary => .transformed path r.className summary
  | none => .untouched

namespace FileStore

variable {σ : Type} {store : FileStore σ} {rules : Rules} {input output : Path}
  {s s' mid : σ} {e : Entry} {read : Bytes} {outcome : Outcome} {fault : RunFault}
  {tree : Entry → Bytes} {files : List Entry} {outcomes : List Outcome}

/-- A writing that does not fail is read back, and no writing is seen at another path. -/
structure Lawful (store : FileStore σ) : Prop where
  stored : ∀ s p content s', store.write s p content = (s', .ok ()) → store.read s' p = .ok content
  others : ∀ s p content q, q ≠ p → store.read (store.write s p content).1 q = store.read s q

theorem Lawful.others_of_eq (h : store.Lawful) {p q : Path} {content : Bytes}
    {done : Except WriteFault Unit} (hwrite : store.write s p content = (s', done)) (hq : q ≠ p) :
    store.read s' q = store.read s q := by
  have hsame := h.others s p content q hq
  rwa [hwrite] at hsame

/-! ## One file -/

/-- A file of which these bytes were read is done. -/
inductive Does (store : FileStore σ) (rules : Rules) (output : Path) (e : Entry) (read : Bytes) :
    σ → σ → Outcome → Prop where
  | copied {s s' : σ} : e.kind ≠ .classFile →
      store.write s (output.extend e.path) read = (s', .ok ()) →
      Does store rules output e read s s' .copied
  | notUnderstood {s s' : σ} (cause : ClassFault) : e.kind = .classFile →
      ClassFile.decode read = .error cause →
      store.write s (output.extend e.path) read = (s', .ok ()) →
      Does store rules output e read s s' (.fallback e.path cause.message)
  | revised {s s' : σ} (r : Revision) : e.kind = .classFile → revise rules read = .ok r →
      store.write s (output.extend e.path) r.bytes = (s', .ok ()) →
      Does store rules output e read s s' (r.outcome e.path)
  /-- The revised bytes are refused, and those that were read are not. -/
  | refused {s mid s' : σ} (r : Revision) (first : WriteFault) : e.kind = .classFile →
      revise rules read = .ok r →
      store.write s (output.extend e.path) r.bytes = (mid, .error first) →
      store.write mid (output.extend e.path) read = (s', .ok ()) →
      Does store rules output e read s s' (.fallback e.path first.message)

/-- A file of which these bytes were read is given up. -/
inductive GivesUp (store : FileStore σ) (rules : Rules) (output : Path) (e : Entry)
    (read : Bytes) : σ → σ → RunFault → Prop where
  | plain {s s' : σ} (cause : WriteFault) : e.kind ≠ .classFile →
      store.write s (output.extend e.path) read = (s', .error cause) →
      GivesUp store rules output e read s s' (.fileNotWritten cause)
  | notUnderstood {s s' : σ} (cause : WriteFault) : e.kind = .classFile →
      (∀ c, ClassFile.decode read ≠ .ok c) →
      store.write s (output.extend e.path) read = (s', .error cause) →
      GivesUp store rules output e read s s' (.fileNotWritten cause)
  /-- Neither the revised bytes are written nor those that were read. -/
  | twice {s mid s' : σ} (r : Revision) (first second : WriteFault) : e.kind = .classFile →
      revise rules read = .ok r →
      store.write s (output.extend e.path) r.bytes = (mid, .error first) →
      store.write mid (output.extend e.path) read = (s', .error second) →
      GivesUp store rules output e read s s' (.classNotWritten first second)

theorem does_or_givesUp (store : FileStore σ) (rules : Rules) (output : Path) (e : Entry)
    (read : Bytes) (s : σ) :
    (∃ s' outcome, store.Does rules output e read s s' outcome) ∨
      ∃ s' fault, store.GivesUp rules output e read s s' fault := by
  obtain ⟨copied, done, hcopy⟩ : ∃ copied done,
      store.write s (output.extend e.path) read = (copied, done) := ⟨_, _, rfl⟩
  by_cases hkind : e.kind = .classFile
  · cases hrevise : revise rules read with
    | error cause =>
      have hdecode := revise_error_iff.1 hrevise
      cases done with
      | ok _ => exact .inl ⟨_, _, .notUnderstood _ hkind hdecode hcopy⟩
      | error _ => exact .inr ⟨_, _, .notUnderstood _ hkind (by simp [hdecode]) hcopy⟩
    | ok r =>
      obtain ⟨mid, first, hfirst⟩ : ∃ mid first,
          store.write s (output.extend e.path) r.bytes = (mid, first) := ⟨_, _, rfl⟩
      cases first with
      | ok _ => exact .inl ⟨_, _, .revised r hkind hrevise hfirst⟩
      | error first =>
        obtain ⟨s', second, hsecond⟩ : ∃ s' second,
            store.write mid (output.extend e.path) read = (s', second) := ⟨_, _, rfl⟩
        cases second with
        | ok _ => exact .inl ⟨_, _, .refused r first hkind hrevise hfirst hsecond⟩
        | error second => exact .inr ⟨_, _, .twice r first second hkind hrevise hfirst hsecond⟩
  · cases done with
    | ok _ => exact .inl ⟨_, _, .copied hkind hcopy⟩
    | error _ => exact .inr ⟨_, _, .plain _ hkind hcopy⟩

section
variable (hread : store.read s (input.extend e.path) = .ok read)
include hread

theorem process_of_does (h : store.Does rules output e read s s' outcome) :
    ∃ events, store.process rules input output s e = ⟨s', events, .ok outcome⟩ := by
  cases h with
  | copied hkind hwrite =>
    refine ⟨[.fileCopy (output.extend e.path)], ?_⟩
    simp only [process, hread, hkind, copy, hwrite, if_false]
  | notUnderstood cause hkind hdecode hwrite =>
    refine ⟨[.notUnderstood (input.extend e.path) cause], ?_⟩
    have hrevise : revise rules read = .error cause := revise_error_iff.2 hdecode
    simp only [process, hread, hkind, processClass, hrevise, copy, hwrite, if_true]
  | revised r hkind hrevise hwrite =>
    have hconclude : ∃ told, conclude s' e.path r none = ⟨s', told, .ok (r.outcome e.path)⟩ := by
      unfold conclude Revision.outcome
      cases r.summary <;> exact ⟨_, rfl⟩
    obtain ⟨told, hconclude⟩ := hconclude
    refine ⟨Event.ofRevision r ++ [] ++ told, ?_⟩
    simp only [process, hread, hkind, processClass, hrevise, writeClass, hwrite, if_true,
      Progress.andThen, hconclude]
  | refused r first hkind hrevise hfirst hsecond =>
    refine ⟨Event.ofRevision r ++ [.writeFailed first (output.extend e.path)] ++ [], ?_⟩
    simp only [process, hread, hkind, processClass, hrevise, writeClass, hfirst, hsecond, if_true,
      Progress.andThen, conclude]

theorem process_of_givesUp (h : store.GivesUp rules output e read s s' fault) :
    ∃ events, store.process rules input output s e = ⟨s', events, .error fault⟩ := by
  cases h with
  | plain _ hkind hwrite =>
    refine ⟨[.fileCopy (output.extend e.path)], ?_⟩
    simp only [process, hread, hkind, copy, hwrite, if_false]
  | notUnderstood _ hkind hnone hwrite =>
    cases hrevise : revise rules read with
    | ok r => exact absurd (revise_ok_iff.1 hrevise).1 (hnone r.source)
    | error cause =>
      refine ⟨[.notUnderstood (input.extend e.path) cause], ?_⟩
      simp only [process, hread, hkind, processClass, hrevise, copy, hwrite, if_true]
  | twice r first second hkind hrevise hfirst hsecond =>
    refine ⟨Event.ofRevision r ++ [.writeFailed first (output.extend e.path)], ?_⟩
    simp only [process, hread, hkind, processClass, hrevise, writeClass, hfirst, hsecond, if_true,
      Progress.andThen]

/-- A file that can be read ends well exactly if it is done. -/
theorem process_ok_iff :
    (∃ events, store.process rules input output s e = ⟨s', events, .ok outcome⟩) ↔
      store.Does rules output e read s s' outcome := by
  refine ⟨fun h => ?_, process_of_does hread⟩
  obtain ⟨events, h⟩ := h
  rcases does_or_givesUp store rules output e read s with ⟨_, _, hdoes⟩ | ⟨_, _, hgivesUp⟩
  · obtain ⟨told, hdone⟩ := process_of_does hread hdoes
    cases h.symm.trans hdone
    exact hdoes
  · obtain ⟨told, hfault⟩ := process_of_givesUp hread hgivesUp
    cases h.symm.trans hfault

/-- A file that can be read ends in a fault exactly if it is given up. -/
theorem process_error_iff :
    (∃ events, store.process rules input output s e = ⟨s', events, .error fault⟩) ↔
      store.GivesUp rules output e read s s' fault := by
  refine ⟨fun h => ?_, process_of_givesUp hread⟩
  obtain ⟨events, h⟩ := h
  rcases does_or_givesUp store rules output e read s with ⟨_, _, hdoes⟩ | ⟨_, _, hgivesUp⟩
  · obtain ⟨told, hdone⟩ := process_of_does hread hdoes
    cases h.symm.trans hdone
  · obtain ⟨told, hfault⟩ := process_of_givesUp hread hgivesUp
    cases h.symm.trans hfault
    exact hgivesUp

end

theorem Does.others (h : store.Does rules output e read s s' outcome) (hstore : store.Lawful)
    {q : Path} (hq : q ≠ output.extend e.path) : store.read s' q = store.read s q := by
  cases h with
  | copied _ hwrite => exact hstore.others_of_eq hwrite hq
  | notUnderstood _ _ _ hwrite => exact hstore.others_of_eq hwrite hq
  | revised _ _ _ hwrite => exact hstore.others_of_eq hwrite hq
  | refused _ _ _ _ hfirst hsecond =>
    rw [hstore.others_of_eq hsecond hq, hstore.others_of_eq hfirst hq]

theorem Does.written (h : store.Does rules output e read s s' outcome) : ∃ mid content,
    store.write mid (output.extend e.path) content = (s', .ok ()) ∧
    (mid = s ∨ ∃ refused first, store.write s (output.extend e.path) refused = (mid, .error first)) := by
  cases h with
  | copied _ hwrite => exact ⟨s, read, hwrite, .inl rfl⟩
  | notUnderstood _ _ _ hwrite => exact ⟨s, read, hwrite, .inl rfl⟩
  | revised r _ _ hwrite => exact ⟨s, r.bytes, hwrite, .inl rfl⟩
  | refused r first _ _ hfirst hsecond => exact ⟨_, read, hsecond, .inr ⟨r.bytes, first, hfirst⟩⟩

/-! ## All files -/

/-- The files are done one after the other, each once. -/
inductive DoesAll (store : FileStore σ) (rules : Rules) (output : Path) (tree : Entry → Bytes) :
    List Entry → σ → σ → List Outcome → Prop where
  | nil {s : σ} : DoesAll store rules output tree [] s s []
  | cons {e : Entry} {rest : List Entry} {s mid s' : σ} {outcome : Outcome}
      {outcomes : List Outcome} : store.Does rules output e (tree e) s mid outcome →
      DoesAll store rules output tree rest mid s' outcomes →
      DoesAll store rules output tree (e :: rest) s s' (outcome :: outcomes)

namespace DoesAll

theorem others (h : store.DoesAll rules output tree files s s' outcomes) (hstore : store.Lawful)
    {q : Path} (hq : ∀ e ∈ files, q ≠ output.extend e.path) : store.read s' q = store.read s q := by
  induction h with
  | nil => rfl
  | cons hdoes _ ih =>
    rw [ih fun e he => hq e (List.mem_cons_of_mem _ he),
      hdoes.others hstore (hq _ List.mem_cons_self)]

theorem length_eq (h : store.DoesAll rules output tree files s s' outcomes) :
    outcomes.length = files.length := by
  induction h with
  | nil => rfl
  | cons _ _ ih => rw [List.length_cons, List.length_cons, ih]

theorem split {front rest : List Entry}
    (h : store.DoesAll rules output tree (front ++ e :: rest) s s' outcomes) :
    ∃ mid next early outcome late, outcomes = early ++ outcome :: late ∧
      store.DoesAll rules output tree front s mid early ∧
      store.Does rules output e (tree e) mid next outcome ∧
      store.DoesAll rules output tree rest next s' late := by
  induction front generalizing s outcomes with
  | nil =>
    cases h with
    | cons hdoes hrest => exact ⟨s, _, [], _, _, rfl, .nil, hdoes, hrest⟩
  | cons first front ih =>
    cases h with
    | cons hfirst hrest =>
      obtain ⟨mid, next, early, outcome, late, rfl, hfront, hdoes, hlate⟩ := ih hrest
      exact ⟨mid, next, _ :: early, outcome, late, rfl, .cons hfirst hfront, hdoes, hlate⟩

end DoesAll

/-- The files are read at their paths as the tree has them, which are not paths that are written. -/
structure Readable (store : FileStore σ) (input output : Path) (tree : Entry → Bytes)
    (files : List Entry) (s : σ) : Prop where
  reads : ∀ e ∈ files, store.read s (input.extend e.path) = .ok (tree e)
  apart : ∀ e ∈ files, ∀ e' ∈ files, input.extend e.path ≠ output.extend e'.path

theorem Readable.rest {rest : List Entry} (h : Readable store input output tree (e :: rest) s)
    (hstore : store.Lawful) (hdoes : store.Does rules output e read s s' outcome) :
    Readable store input output tree rest s' := by
  refine ⟨fun e' he' => ?_, fun a ha b hb =>
    h.apart a (List.mem_cons_of_mem e ha) b (List.mem_cons_of_mem e hb)⟩
  have he'' : e' ∈ e :: rest := List.mem_cons_of_mem e he'
  rw [hdoes.others hstore (h.apart e' he'' e List.mem_cons_self), h.reads e' he'']

section
variable (hstore : store.Lawful)
include hstore

/-- All files come to their end exactly if all are done. -/
theorem processAll_ok_iff (hreadable : Readable store input output tree files s) :
    (∃ events, store.processAll rules input output s files = ⟨s', events, .ok outcomes⟩) ↔
      store.DoesAll rules output tree files s s' outcomes := by
  induction files generalizing s outcomes with
  | nil =>
    refine ⟨fun h => ?_, fun h => ?_⟩
    · obtain ⟨events, h⟩ := h
      cases h
      exact .nil
    · cases h
      exact ⟨[], rfl⟩
  | cons e rest ih =>
    have hread := hreadable.reads e List.mem_cons_self
    refine ⟨fun h => ?_, fun h => ?_⟩
    · obtain ⟨events, h⟩ := h
      rw [processAll, Progress.andThen_ok_iff] at h
      obtain ⟨mid, told, outcome, more, hfile, hrest, _⟩ := h
      obtain ⟨outcomes', hlate, rfl⟩ := Progress.mapBoth_ok_iff.1 hrest
      have hdoes := (process_ok_iff hread).1 ⟨told, hfile⟩
      exact .cons hdoes ((ih (hreadable.rest hstore hdoes)).1 ⟨more, hlate⟩)
    · cases h with
      | cons hdoes hrest =>
        obtain ⟨told, hfile⟩ := (process_ok_iff hread).2 hdoes
        obtain ⟨more, hrest⟩ := (ih (hreadable.rest hstore hdoes)).2 hrest
        refine ⟨told ++ more, ?_⟩
        simp only [processAll, hfile, Progress.andThen, hrest]
        rfl

/-- All files end in a fault exactly if one is given up, once those before it are done. -/
theorem processAll_error_iff (hreadable : Readable store input output tree files s) :
    (∃ events, store.processAll rules input output s files = ⟨s', events, .error fault⟩) ↔
      ∃ front e rest mid early, files = front ++ e :: rest ∧
        store.DoesAll rules output tree front s mid early ∧
        store.GivesUp rules output e (tree e) mid s' fault := by
  induction files generalizing s with
  | nil =>
    refine ⟨fun h => ?_, fun h => ?_⟩
    · obtain ⟨events, h⟩ := h
      cases h
    · obtain ⟨front, e, rest, mid, early, hsplit, _⟩ := h
      simp at hsplit
  | cons first rest ih =>
    have hread := hreadable.reads first List.mem_cons_self
    refine ⟨fun h => ?_, fun h => ?_⟩
    · obtain ⟨events, h⟩ := h
      obtain ⟨mid, told, result, hfile⟩ : ∃ mid told result,
          store.process rules input output s first = ⟨mid, told, result⟩ := ⟨_, _, _, rfl⟩
      simp only [processAll, hfile, Progress.andThen] at h
      cases result with
      | error cause =>
        cases h
        exact ⟨[], first, rest, s, [], rfl, .nil, (process_error_iff hread).1 ⟨_, hfile⟩⟩
      | ok outcome =>
        have hdoes := (process_ok_iff hread).1 ⟨told, hfile⟩
        obtain ⟨last, more, result, hrest⟩ : ∃ last more result,
            store.processAll rules input output mid rest = ⟨last, more, result⟩ := ⟨_, _, _, rfl⟩
        simp only [hrest, Progress.mapBoth] at h
        cases result with
        | ok outcomes => cases h
        | error cause =>
          cases h
          obtain ⟨front, e, behind, last, early, rfl, hfront, hgivesUp⟩ :=
            (ih (hreadable.rest hstore hdoes)).1 ⟨more, hrest⟩
          exact ⟨first :: front, e, behind, last, outcome :: early, rfl, .cons hdoes hfront,
            hgivesUp⟩
    · obtain ⟨front, e, behind, mid, early, hsplit, hfront, hgivesUp⟩ := h
      cases hfront with
      | nil =>
        cases hsplit
        obtain ⟨told, hfile⟩ := (process_error_iff hread).2 hgivesUp
        exact ⟨told, by simp only [processAll, hfile, Progress.andThen]⟩
      | cons hdoes hfront =>
        cases hsplit
        obtain ⟨told, hfile⟩ := (process_ok_iff hread).2 hdoes
        obtain ⟨more, hrest⟩ := (ih (hreadable.rest hstore hdoes)).2
          ⟨_, e, behind, mid, _, rfl, hfront, hgivesUp⟩
        refine ⟨told ++ more, ?_⟩
        simp only [processAll, hfile, Progress.andThen, hrest]
        rfl

end

/-! ## What is read back -/

/-- How a file of which these bytes were read is settled: `turn` is the store when it is the turn of
the file, and `last` is the store in the end. -/
structure Settled (store : FileStore σ) (rules : Rules) (output : Path) (e : Entry) (read : Bytes)
    (turn last : σ) (outcome : Outcome) : Prop where
  copied : outcome = .copied ↔ e.kind ≠ .classFile
  plain : outcome = .copied → store.read last (output.extend e.path) = .ok read
  /-- A class is listed as copied if it is not understood or its revised bytes are refused. -/
  fallback : (∃ reason, outcome = .fallback e.path reason) ↔ e.kind = .classFile ∧
    ((∀ c, ClassFile.decode read ≠ .ok c) ∨ ∃ r refused first, revise rules read = .ok r ∧
      store.write turn (output.extend e.path) r.bytes = (refused, .error first))
  original : (∃ reason, outcome = .fallback e.path reason) →
    store.read last (output.extend e.path) = .ok read
  revised : outcome = .untouched ∨
      (∃ className summary, outcome = .transformed e.path className summary) →
    ∃ r, revise rules read = .ok r ∧ outcome = r.outcome e.path ∧
      store.read last (output.extend e.path) = .ok r.bytes

theorem outcome_ne (r : Revision) (path : List Name) :
    r.outcome path ≠ .copied ∧ ∀ reason, r.outcome path ≠ .fallback path reason := by
  unfold Revision.outcome
  cases r.summary <;> simp

theorem Does.settled {turn next last : σ} (h : store.Does rules output e read turn next outcome)
    (hstore : store.Lawful)
    (hlast : store.read last (output.extend e.path) = store.read next (output.extend e.path)) :
    store.Settled rules output e read turn last outcome := by
  cases h with
  | copied hkind hwrite =>
    have hheld := hlast.trans (hstore.stored _ _ _ _ hwrite)
    exact ⟨by simp [hkind], fun _ => hheld, by simp [hkind], by simp, by simp⟩
  | notUnderstood cause hkind hdecode hwrite =>
    have hheld := hlast.trans (hstore.stored _ _ _ _ hwrite)
    exact ⟨by simp [hkind], by simp, by simp [hkind, hdecode], fun _ => hheld, by simp⟩
  | revised r hkind hrevise hwrite =>
    have hheld := hlast.trans (hstore.stored _ _ _ _ hwrite)
    obtain ⟨hcopied, hfallback⟩ := outcome_ne r e.path
    have hlisted : ¬ ∃ reason, r.outcome e.path = .fallback e.path reason := by
      rintro ⟨reason, hreason⟩
      exact hfallback reason hreason
    refine ⟨by simp [hkind, hcopied], fun h => absurd h hcopied, ?_, fun h => absurd h hlisted,
      fun _ => ⟨r, hrevise, rfl, hheld⟩⟩
    refine ⟨fun h => absurd h hlisted, fun h => ?_⟩
    rcases h.2 with hnone | ⟨r', refused, first, hrevise', hrefused⟩
    · exact absurd (revise_ok_iff.1 hrevise).1 (hnone r.source)
    · obtain rfl := Except.ok.inj (hrevise.symm.trans hrevise')
      cases hwrite.symm.trans hrefused
  | refused r first hkind hrevise hfirst hsecond =>
    have hheld := hlast.trans (hstore.stored _ _ _ _ hsecond)
    exact ⟨by simp [hkind], by simp, by simp [hkind, hrevise, hfirst], fun _ => hheld, by simp⟩

/-- Whatever writings fail, the files end in a fault exactly if one of them is given up once those
before it are done; else all of them are done, each once, and what is read back of a file is what
its outcome says. -/
theorem processAll_failsOpen (hstore : store.Lawful) (rules : Rules)
    (hdistinct : files.Pairwise fun a b => a.path ≠ b.path)
    (hreadable : Readable store input output tree files s) :
    (∀ s' fault,
      (∃ events, store.processAll rules input output s files = ⟨s', events, .error fault⟩) ↔
        ∃ front e rest mid early, files = front ++ e :: rest ∧
          store.DoesAll rules output tree front s mid early ∧
          store.GivesUp rules output e (tree e) mid s' fault) ∧
    ∀ s' events outcomes,
      store.processAll rules input output s files = ⟨s', events, .ok outcomes⟩ →
        outcomes.length = files.length ∧ store.DoesAll rules output tree files s s' outcomes ∧
        ∀ front e rest, files = front ++ e :: rest → ∃ turn early outcome late,
          outcomes = early ++ outcome :: late ∧ early.length = front.length ∧
          store.DoesAll rules output tree front s turn early ∧
          store.Settled rules output e (tree e) turn s' outcome := by
  refine ⟨fun s' fault => processAll_error_iff hstore hreadable, fun s' events outcomes h => ?_⟩
  have hall := (processAll_ok_iff hstore hreadable).1 ⟨events, h⟩
  refine ⟨hall.length_eq, hall, fun front e rest hsplit => ?_⟩
  subst hsplit
  obtain ⟨turn, next, early, outcome, late, houtcomes, hfront, hdoes, hlate⟩ := hall.split
  have hothers : ∀ e' ∈ rest, output.extend e.path ≠ output.extend e'.path := by
    intro e' he' heq
    have htail := (List.pairwise_append.1 hdistinct).2.1
    exact (List.pairwise_cons.1 htail).1 e' he' (Path.extend_injective heq)
  exact ⟨turn, early, outcome, late, houtcomes, hfront.length_eq, hfront,
    hdoes.settled hstore (hlate.others hstore hothers)⟩

/-! ## A store that refuses -/

/-- Files by their paths, and the number of writings so far. The writings of some numbers are
refused and leave nothing at their path. -/
def refusing (refused : Nat → Bool) : FileStore (Nat × (Path → Option Bytes)) where
  read s p :=
    match s.2 p with
    | some content => .ok content
    | none => .error .missing
  write s p content :=
    if refused s.1 then
      ((s.1 + 1, fun q => if q = p then none else s.2 q), .error (.refused "refused"))
    else ((s.1 + 1, fun q => if q = p then some content else s.2 q), .ok ())

theorem refusing_lawful (refused : Nat → Bool) : (refusing refused).Lawful := by
  refine ⟨fun s p content s' h => ?_, fun s p content q hq => ?_⟩
  · simp only [refusing] at h
    split at h
    · cases h
    · cases h
      simp only [refusing, if_true]
  · by_cases hrefused : refused s.1 = true <;> simp [refusing, hrefused, hq]

def firstName : Name := ⟨"First.class", by decide⟩
def secondName : Name := ⟨"Second.class", by decide⟩
def classesInput : Path := ⟨[.name ⟨"classes", by decide⟩]⟩
def classesOutput : Path := ⟨[.name ⟨"opened", by decide⟩]⟩

/-- Two class files, one after the other. -/
def twoClasses : List Entry := [⟨[firstName], .classFile⟩, ⟨[secondName], .classFile⟩]

/-- Both are the same class, and nothing else is there. -/
def twoSealed : Nat × (Path → Option Bytes) :=
  (0, fun p => if p = classesInput.extend [firstName] ∨ p = classesInput.extend [secondName] then
    some sealedBytes else none)

theorem twoSealed_readable (refused : Nat → Bool) :
    Readable (refusing refused) classesInput classesOutput (fun _ => sealedBytes) twoClasses
      twoSealed := by
  refine ⟨fun e he => ?_, by decide⟩
  simp only [twoClasses, List.mem_cons, List.not_mem_nil, or_false] at he
  rcases he with rfl | rfl <;> rfl

/-- If only the first writing is refused, the first class is copied and the second is opened; if
the first two are refused, nothing more is done. -/
theorem refusing_failsOpen :
    (∃ s' events, (refusing (· = 0)).processAll { Rules.none with classes := ["A"] } classesInput
        classesOutput twoSealed twoClasses = ⟨s', events, .ok
          [.fallback [firstName] "refused", .transformed [secondName] "A" ⟨true, ["m()V"]⟩]⟩ ∧
      (refusing (· = 0)).read s' (classesOutput.extend [firstName]) = .ok sealedBytes ∧
      (refusing (· = 0)).read s' (classesOutput.extend [secondName]) = .ok openedBytes) ∧
    ∃ s' events, (refusing (· < 2)).processAll { Rules.none with classes := ["A"] } classesInput
      classesOutput twoSealed twoClasses =
        ⟨s', events, .error (.classNotWritten (.refused "refused") (.refused "refused"))⟩ := by
  refine ⟨?_, ?_⟩
  · obtain ⟨s', events, hrun⟩ : ∃ s' events, (refusing (· = 0)).processAll
        { Rules.none with classes := ["A"] } classesInput classesOutput twoSealed twoClasses =
          ⟨s', events, .ok
            [.fallback [firstName] "refused", .transformed [secondName] "A" ⟨true, ["m()V"]⟩]⟩ :=
      ⟨_, _, rfl⟩
    obtain ⟨_, _, hsettled⟩ := (processAll_failsOpen (refusing_lawful _) _ (by decide)
      (twoSealed_readable _)).2 _ _ _ hrun
    refine ⟨s', events, hrun, ?_, ?_⟩
    · obtain ⟨_, early, outcome, late, houtcomes, hlength, _, hfirst⟩ := hsettled [] _ _ rfl
      obtain rfl : early = [] := List.length_eq_zero_iff.1 hlength
      cases houtcomes
      exact hfirst.original ⟨_, rfl⟩
    · obtain ⟨_, early, outcome, late, houtcomes, hlength, _, hsecond⟩ := hsettled [_] _ _ rfl
      obtain ⟨first, rfl⟩ := List.length_eq_one_iff.1 hlength
      cases houtcomes
      obtain ⟨r, hrevise, _, hheld⟩ := hsecond.revised (.inr ⟨_, _, rfl⟩)
      rwa [← Except.ok.inj (revise_sealedBytes.symm.trans hrevise)] at hheld
  · obtain ⟨s', hgivesUp⟩ : ∃ s', (refusing (· < 2)).GivesUp { Rules.none with classes := ["A"] }
        classesOutput ⟨[firstName], .classFile⟩ sealedBytes twoSealed s'
          (.classNotWritten (.refused "refused") (.refused "refused")) :=
      ⟨_, .twice _ _ _ rfl revise_sealedBytes rfl rfl⟩
    refine ⟨s', ((processAll_failsOpen (refusing_lawful _) _ (by decide)
      (twoSealed_readable _)).1 s' _).2 ?_⟩
    exact ⟨[], _, _, twoSealed, [], rfl, .nil, hgivesUp⟩

end FileStore

end Unseal
