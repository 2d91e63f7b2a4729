import Unseal.Proofs.FileSystem.Plain
import Unseal.Proofs.Run.Mirror
import Unseal.Proofs.Run.Refusals
/-
  Filling — files done in any order

  When the directories are made there is one around every place that a file is to
  be written at. If no link was left at such a place, it depends on the file alone
  from then on whether it can be done: it must have been readable before, the path
  to it below the output must be taken, and there must be no directory there. What
  is written and reported for it depends on the bytes that were read before and on
  nothing else. So files can be done in any order, and as no writing fails for some
  bytes only, a run that succeeds is one in which none failed.

  What is proved:
    1. `Ready.writeOutput_isOk` — any bytes are written for a file by a path that is
       taken, where there is no directory.
    2. `Ready.process_isOk`, `Ready.process_needs` — a file is done exactly if it
       could be read and can be written.
    3. `Ready.processAll_isOk`, `Ready.processAll_needs` — the same about files in any
       order, with what is seen afterwards; `Ready.processAll_ok` puts both together.
-/

namespace Unseal

/-! ## Outcomes -/

/-- What a file is reported as of which these bytes were read, if no writing fails. -/
def Outcome.ofRead (rules : Rules) (e : Entry) (read : Bytes) : Outcome :=
  match e.kind, revise rules read with
  | .classFile, .ok r => r.outcome e.path
  | .classFile, .error cause => .fallback e.path cause.message
  | _, _ => .copied

theorem ofRead_of_ne {e : Entry} (hkind : e.kind ≠ .classFile) (rules : Rules) (read : Bytes) :
    Outcome.ofRead rules e read = .copied ∧ delivered rules e.kind read = read := by
  obtain ⟨path, kind⟩ := e
  cases kind with
  | classFile => exact absurd rfl hkind
  | directory => exact ⟨rfl, rfl⟩
  | plainFile => exact ⟨rfl, rfl⟩

theorem FileStore.does_of_delivered {σ : Type} {store : FileStore σ} {rules : Rules} {output : Path}
    {s s' : σ} {e : Entry} {read : Bytes}
    (h : store.write s (output.extend e.path) (delivered rules e.kind read) = (s', .ok ())) :
    store.Does rules output e read s s' (.ofRead rules e read) := by
  by_cases hkind : e.kind = .classFile
  · cases hrevise : revise rules read with
    | ok r =>
      simp only [delivered, Outcome.ofRead, hkind, hrevise] at h ⊢
      exact .revised r hkind hrevise h
    | error cause =>
      simp only [delivered, Outcome.ofRead, hkind, hrevise] at h ⊢
      exact .notUnderstood cause hkind (revise_error_iff.1 hrevise) h
  · obtain ⟨houtcome, hdelivered⟩ := ofRead_of_ne hkind rules read
    rw [hdelivered] at h
    rw [houtcome]
    exact .copied hkind h

namespace FileSystem

variable {before now now' : FileSystem} {rules : Rules} {input output : Path} {root : Location}
  {entries files : List Entry} {e : Entry} {events : List Event}

/-- A stage at which every directory is there that something is to be put in. -/
structure Ready (root : Location) (entries : List Entry) (before now : FileSystem) : Prop
    extends Stage root entries before now where
  above : ∀ e ∈ entries, now.look (root ++ e.path.dropLast) = some .directory

/-- The bytes of the file to which the path leads; of anything else there are none. -/
def bytesAt (fs : FileSystem) (p : Path) : Bytes :=
  match fs.readFile p with
  | .ok bytes => bytes
  | .error _ => []

theorem bytesAt_of_readFile {fs : FileSystem} {p : Path} {bytes : Bytes}
    (h : fs.readFile p = .ok bytes) : fs.bytesAt p = bytes := by
  rw [bytesAt, h]

theorem readFile_bytesAt {fs : FileSystem} {p : Path} (h : ∃ bytes, fs.readFile p = .ok bytes) :
    fs.readFile p = .ok (fs.bytesAt p) := by
  obtain ⟨bytes, h⟩ := h
  rw [bytesAt_of_readFile h, h]

/-- The file could be read before, the path to it below the output is taken, and there was no
directory there. -/
structure Doable (before : FileSystem) (input output : Path) (root : Location) (e : Entry) :
    Prop where
  readable : ∃ read, before.readFile (input.extend e.path) = .ok read
  taken : (output.extend e.path).check = .ok ()
  free : before.look (root ++ e.path) ≠ some .directory

/-- What is to be reported for a file. -/
def outcomeOf (before : FileSystem) (rules : Rules) (input : Path) (e : Entry) : Outcome :=
  .ofRead rules e (before.bytesAt (input.extend e.path))

/-- The bytes that are to be written for a file. -/
def deliveredFor (before : FileSystem) (rules : Rules) (input : Path) (e : Entry) : Bytes :=
  delivered rules e.kind (before.bytesAt (input.extend e.path))

/-- What is to be written for these files is seen, and nothing else has changed. -/
structure Filled (rules : Rules) (input : Path) (root : Location) (files : List Entry)
    (before made now : FileSystem) : Prop where
  elsewhere : ∀ loc, (∀ e ∈ files, loc ≠ root ++ e.path) → now.look loc = made.look loc
  files : ∀ e ∈ files, now.look (root ++ e.path) = some (.file (before.deliveredFor rules input e))

namespace Ready

theorem grown (hready : Ready root entries before now) (hgrows : Grows now now')
    (hstage : Stage root entries before now') : Ready root entries before now' :=
  ⟨hstage, fun e he => hgrows.directory (hready.above e he)⟩

section
variable (houtput : output.segments ≠ [.blank]) (hroot : before.PathTo .thing output (.found root))
  (hlisting : Listing before input entries) (hunlinked : before.Unlinked root entries)
  (hready : Ready root entries before now)
include houtput hroot hlisting hunlinked hready

/-- Any bytes are written for a file by a path that is taken, where there is no directory. -/
theorem writeOutput_isOk (he : e ∈ entries) (hkind : e.kind ≠ .directory)
    (htaken : (output.extend e.path).check = .ok ())
    (hfree : before.look (root ++ e.path) ≠ some .directory) (content : Bytes) :
    ∃ now', now.writeOutput (output.extend e.path) content = (now', .ok ()) := by
  obtain ⟨above, n, hpath, _⟩ := hlisting.named e he
  have habove := hready.above e he
  have hold := hready.vacant_or_file hlisting hunlinked he hkind hfree
  rw [hpath] at habove hold htaken ⊢
  rw [List.dropLast_concat] at habove
  exact writeOutput_below_isOk houtput (hready.grows.pathTo hroot) htaken habove hold content

variable (hapart : before.EntriesApart input root entries)
include hapart

theorem process_isOk (rules : Rules) (he : e ∈ entries) (hkind : e.kind ≠ .directory)
    (hdoable : Doable before input output root e) :
    ∃ now' events, store.process rules input output now e =
        ⟨now', events, .ok (before.outcomeOf rules input e)⟩ ∧
      Ready root entries before now' ∧
      Sets now now' (root ++ e.path) (.file (before.deliveredFor rules input e)) := by
  obtain ⟨loc, hloc⟩ := hlisting.located e he
  have hread := (hready.readFile_iff hloc (hapart e he)).2 (readFile_bytesAt hdoable.readable)
  obtain ⟨now', hwrite⟩ := hready.writeOutput_isOk houtput hroot hlisting hunlinked he hkind
    hdoable.taken hdoable.free (before.deliveredFor rules input e)
  obtain ⟨hstage, hsets⟩ := writeOutput_stage houtput hroot hlisting hunlinked hready.toStage he
    hkind (hready.above e he) hwrite
  have hdoes : store.Does rules output e _ now now' (before.outcomeOf rules input e) :=
    FileStore.does_of_delivered hwrite
  obtain ⟨events, hdone⟩ := FileStore.process_of_does hread hdoes
  exact ⟨now', events, hdone, hready.grown (writeOutput_grows hwrite) hstage, hsets⟩

omit hunlinked in
theorem process_needs {outcome : Outcome} (he : e ∈ entries)
    (h : store.process rules input output now e = ⟨now', events, .ok outcome⟩) :
    Doable before input output root e := by
  have hdone : ¬ ∃ fault, (store.process rules input output now e).result = .error fault := by
    simp [h]
  obtain ⟨loc, hloc⟩ := hlisting.located e he
  cases hread : now.readFile (input.extend e.path) with
  | error cause =>
    refine absurd (FileStore.process_fails (.inl fun bytes hbytes => ?_)) hdone
    cases hread.symm.trans hbytes
  | ok read =>
    refine ⟨⟨read, (hready.readFile_iff hloc (hapart e he)).1 hread⟩, ?_, fun hdirectory => ?_⟩
    · cases hcheck : (output.extend e.path).check with
      | ok _ => rfl
      | error fault =>
        exact absurd (FileStore.process_fails (.inr (writeOutput_of_check hcheck))) hdone
    · obtain ⟨above, n, hpath, _⟩ := hlisting.named e he
      have hdoes : store.Does rules output e read now now' outcome :=
        (FileStore.process_ok_iff hread).1 ⟨events, h⟩
      obtain ⟨mid, content, hwrite, hmid⟩ := hdoes.written
      have hroot' := hready.grows.pathTo hroot
      have hnow := hready.grows.directory hdirectory
      rw [hpath] at hnow hwrite hmid
      -- The first writing fails at the directory and leaves it, and then so must the second.
      obtain rfl : mid = now := by
        rcases hmid with rfl | ⟨_, _, hfirst⟩
        · rfl
        · obtain ⟨init, hinit⟩ := output.segments_extend_concat above n
          exact writeOutput_error (pathTo_found houtput hroot' .thing (by simp) hnow (by simp)) hinit
            hfirst
      exact writeOutput_not_directory houtput hroot' hwrite hnow

/-- Files that can be done are done, in whatever order they are. -/
theorem processAll_isOk (rules : Rules) (hfiles : ∀ e ∈ files, e ∈ entries ∧ e.kind ≠ .directory)
    (hdistinct : files.Pairwise fun a b => a.path ≠ b.path)
    (hdoable : ∀ e ∈ files, Doable before input output root e) :
    ∃ now' events, store.processAll rules input output now files =
        ⟨now', events, .ok (files.map (before.outcomeOf rules input))⟩ ∧
      Ready root entries before now' ∧ Filled rules input root files before now now' := by
  induction files generalizing now with
  | nil => exact ⟨now, [], rfl, hready, fun _ _ => rfl, by simp⟩
  | cons e rest ih =>
    obtain ⟨hothers, hdistinct⟩ := List.pairwise_cons.1 hdistinct
    obtain ⟨he, hkind⟩ := hfiles e List.mem_cons_self
    obtain ⟨mid, told, hfile, hmid, hsets⟩ := hready.process_isOk houtput hroot hlisting hunlinked
      hapart rules he hkind (hdoable e List.mem_cons_self)
    obtain ⟨now', more, hrest, hready', hfilled⟩ := ih hmid
      (fun e he => hfiles e (List.mem_cons_of_mem _ he)) hdistinct
      (fun e he => hdoable e (List.mem_cons_of_mem _ he))
    refine ⟨now', told ++ more, ?_, hready', fun loc hloc => ?_, fun e' he' => ?_⟩
    · simp only [FileStore.processAll, hfile, Progress.andThen, hrest]
      rfl
    · rw [hfilled.elsewhere loc fun e he => hloc e (List.mem_cons_of_mem _ he),
        hsets.other loc (hloc e List.mem_cons_self)]
    · rcases List.mem_cons.1 he' with rfl | he'
      · -- No later file is written where this one was, since their paths differ.
        rw [hfilled.elsewhere _ fun e he heq => hothers e he (List.append_cancel_left heq)]
        exact hsets.self
      · exact hfilled.files e' he'

theorem processAll_needs {outcomes : List Outcome}
    (hfiles : ∀ e ∈ files, e ∈ entries ∧ e.kind ≠ .directory)
    (h : store.processAll rules input output now files = ⟨now', events, .ok outcomes⟩) :
    ∀ e ∈ files, Doable before input output root e := by
  induction files generalizing now events outcomes with
  | nil => simp
  | cons e rest ih =>
    obtain ⟨he, hkind⟩ := hfiles e List.mem_cons_self
    rw [FileStore.processAll, Progress.andThen_ok_iff] at h
    obtain ⟨mid, told, outcome, more, hfile, hrest, _⟩ := h
    obtain ⟨outcomes', hlate, _⟩ := Progress.mapBoth_ok_iff.1 hrest
    have hdoable := hready.process_needs houtput hroot hlisting hapart he hfile
    obtain ⟨mid', told', hdone, hmid, _⟩ := hready.process_isOk houtput hroot hlisting hunlinked
      hapart rules he hkind hdoable
    obtain rfl : mid = mid' := congrArg Progress.state (hfile.symm.trans hdone)
    intro e' he'
    rcases List.mem_cons.1 he' with rfl | he'
    · exact hdoable
    · exact ih hmid (fun e he => hfiles e (List.mem_cons_of_mem _ he)) hlate e' he'

/-- Of files that are all done it is known what was reported and what is seen. -/
theorem processAll_ok {outcomes : List Outcome}
    (hfiles : ∀ e ∈ files, e ∈ entries ∧ e.kind ≠ .directory)
    (hdistinct : files.Pairwise fun a b => a.path ≠ b.path)
    (h : store.processAll rules input output now files = ⟨now', events, .ok outcomes⟩) :
    outcomes = files.map (before.outcomeOf rules input) ∧ Ready root entries before now' ∧
      Filled rules input root files before now now' := by
  have hdoable := hready.processAll_needs houtput hroot hlisting hunlinked hapart hfiles h
  obtain ⟨last, told, hdone, hready', hfilled⟩ := hready.processAll_isOk houtput hroot hlisting
    hunlinked hapart rules hfiles hdistinct hdoable
  cases h.symm.trans hdone
  exact ⟨rfl, hready', hfilled⟩

end

end Ready

theorem ready_of_made {made : FileSystem} (houtput : output.segments ≠ [.blank])
    (hroot : before.PathTo .thing output (.found root)) (hlisting : Listing before input entries)
    (hunlinked : before.Unlinked root entries) (hdir : before.look root = some .directory)
    (hmade : before.makeOutputDirectories output (entries.filter (·.kind = .directory)) =
      ⟨made, events, .ok ()⟩) : Ready root entries before made := by
  obtain ⟨hstage, _, habove⟩ := stage_of_made houtput hroot hlisting hunlinked hdir hmade
  exact ⟨hstage, habove⟩

theorem onlyEntries_of_prepared {fs prepared : FileSystem}
    (hprepared : fs.prepareOutput output = (prepared, .ok ())) (hnonempty : output.isEmpty = false)
    (hlocate : prepared.locate output = .ok root) (hup : .up ∉ output.segments)
    (entries : List Entry) : prepared.OnlyEntries root entries := by
  obtain ⟨place, hplace, _, hempty⟩ := prepareOutput_empty hprepared hnonempty hup
  obtain rfl : root = place := Except.ok.inj (hlocate.symm.trans hplace)
  intro way item hway hitem
  rw [hempty way hway] at hitem
  cases hitem

end FileSystem

end Unseal
