import Unseal.Proofs.Run.Filling
/-
  Clean filling — how an output is filled in which nothing else stands

  Nothing but a path that is too long can refuse a step here: each directory is
  made in one that is there, each file is read where it was met, and written where
  nothing or a file stands. A step that is refused leaves everything as it was. So
  the invariant of a run holds however it ends, and a run ends well if all its
  paths are short enough.

  What is proved:
    1. `makeOutputDirectories_keeps`, `writeOutput_keeps` — each step keeps the
       invariant, even one that fails.
    2. `copyEntries_keeps`, `copyEntries_isOk` — filling the output keeps it, and
       succeeds if no path is too long.
    3. `makeOutputDirectories_taken`, `process_tooLong` — a path that is too long
       makes a step fail.
-/

namespace Unseal

theorem Listing.isEmpty_extend {fs : FileSystem} {input : Path} {entries : List Entry}
    (h : Listing fs input entries) {e : Entry} (he : e ∈ entries) (output : Path) :
    (output.extend e.path).isEmpty = false := by
  obtain ⟨above, n, hpath, _⟩ := h.named e he
  rw [hpath]
  exact output.isEmpty_extend_concat above n

namespace FileSystem

variable {before now : FileSystem} {rules : Rules} {input output : Path} {root : Location}
  {entries : List Entry}

/-! ## Steps and their runs -/

section
variable (houtput : output.segments ≠ [.blank]) (htaken : output.check = .ok ())
  (hroot : before.PathTo .thing output (.found root)) (hdir : before.look root = some .directory)
  (hlisting : Listing before input entries) (honly : before.OnlyEntries root entries)
include houtput hroot hlisting honly

theorem makeDirectories_isOk (hstage : Stage root entries before now) {e : Entry} (he : e ∈ entries)
    (hkind : e.kind = .directory) (hcheck : (output.extend e.path).check = .ok ())
    (habove : now.look (root ++ e.path.dropLast) = some .directory) :
    ∃ now', now.makeDirectories (output.extend e.path) = (now', .ok ()) := by
  obtain ⟨above, n, hpath, _⟩ := hlisting.named e he
  have hold : now.look (root ++ e.path) = none ∨ now.look (root ++ e.path) = some .directory := by
    cases hitem : now.look (root ++ e.path) with
    | none => exact .inl rfl
    | some item =>
      have hsuits := (hstage.onlyEntries honly).suits hlisting he hitem
      cases item with
      | directory => exact .inr rfl
      | file content => exact absurd hkind hsuits
      | link target => cases hsuits
  rw [hpath] at habove hcheck hold ⊢
  rw [List.dropLast_concat] at habove
  exact makeDirectories_below_isOk houtput (hstage.grows.pathTo hroot) hcheck habove hold

include htaken

/-- Making the directories that were met keeps the stage, however it ends, and it succeeds if no
path is too long. -/
theorem makeOutputDirectories_keeps {dirs : List Entry} {met : List (List Name)}
    (hstage : Stage root entries before now)
    (hdirs : ∀ e ∈ dirs, e ∈ entries ∧ e.kind = .directory) (hparents : ParentsFirst met dirs)
    (hmet : ∀ way ∈ met, now.look (root ++ way) = some .directory) :
    ∃ now' events result, now.makeOutputDirectories output dirs = ⟨now', events, result⟩ ∧
      Stage root entries before now' ∧
      ((∀ e ∈ dirs, (output.extend e.path).isTooLong = false) → result = .ok ()) := by
  induction dirs generalizing now met with
  | nil => exact ⟨now, [], .ok (), rfl, hstage, fun _ => rfl⟩
  | cons e rest ih =>
    obtain ⟨he, hkind⟩ := hdirs e List.mem_cons_self
    have habove := hmet _ hparents.1
    cases hcheck : (output.extend e.path).check with
    | error cause =>
      have hne : (output.extend e.path).segments ≠ [] :=
        List.isEmpty_eq_false_iff.1 (hlisting.isEmpty_extend he output)
      have hmake := makeDirectories_of_check hcheck now hne
      refine ⟨now, [.directoryCopy (output.extend e.path)],
        .error (.directoryNotMade (output.extend e.path) cause), ?_, hstage, fun hshort => ?_⟩
      · simp only [makeOutputDirectories, hmake]
        rfl
      · cases hcheck.symm.trans (Path.check_extend htaken (hshort e List.mem_cons_self))
    | ok _ =>
      obtain ⟨mid, hmake⟩ := makeDirectories_isOk houtput hroot hlisting honly hstage he hkind hcheck
        habove
      obtain ⟨hmid, hmade⟩ := makeDirectories_stage houtput hroot hlisting (honly.unlinked hlisting)
        hstage he hkind habove hmake
      have hparents' := hparents.2
      rw [if_pos hkind] at hparents'
      have hmet' : ∀ way ∈ e.path :: met, mid.look (root ++ way) = some .directory := by
        intro way hway
        rcases List.mem_cons.1 hway with rfl | hway
        · exact hmade
        · exact (makeDirectories_adds hmake).grows.directory (hmet way hway)
      obtain ⟨now', events, result, hrest, hstage', hdone⟩ := ih hmid
        (fun e he => hdirs e (List.mem_cons_of_mem _ he)) hparents' hmet'
      refine ⟨now', .directoryCopy (output.extend e.path) :: events, result, ?_, hstage',
        fun hshort => hdone fun e he => hshort e (List.mem_cons_of_mem _ he)⟩
      simp only [makeOutputDirectories, hmake, mapError_of_ok, Progress.andThen, hrest]
      rfl

omit htaken in
/-- Writing a file for an entry keeps the stage, even if it fails. -/
theorem writeOutput_keeps (hready : Ready root entries before now) {e : Entry} (he : e ∈ entries)
    (hkind : e.kind ≠ .directory) (content : Bytes) :
    Ready root entries before (now.writeOutput (output.extend e.path) content).1 := by
  have hunlinked := honly.unlinked hlisting
  obtain ⟨now', done, hwrite⟩ : ∃ now' done,
      now.writeOutput (output.extend e.path) content = (now', done) := ⟨_, _, rfl⟩
  rw [hwrite]
  cases done with
  | ok _ =>
    have hstage := (writeOutput_stage houtput hroot hlisting hunlinked hready.toStage he hkind
      (hready.above e he) hwrite).1
    exact hready.grown (writeOutput_grows hwrite) hstage
  | error fault =>
    obtain ⟨above, n, hpath, _⟩ := hlisting.named e he
    have habove := hready.above e he
    have hroot' := hready.grows.pathTo hroot
    have hlink := hready.unlinked hlisting hunlinked e he
    rw [hpath] at habove hwrite hlink
    rw [List.dropLast_concat] at habove
    obtain ⟨t, hleads⟩ : ∃ t, now.PathTo .thing (output.extend (above ++ [n])) t := by
      cases hitem : now.look (root ++ (above ++ [n])) with
      | none => exact ⟨_, pathTo_vacant houtput hroot' .thing habove hitem⟩
      | some item =>
        refine ⟨_, pathTo_found houtput hroot' .thing (by simp) hitem ?_⟩
        rintro target rfl
        exact hlink target hitem
    obtain ⟨init, hinit⟩ := output.segments_extend_concat above n
    obtain rfl := writeOutput_error hleads hinit hwrite
    exact hready

include hdir

/-- Filling an output in which there is nothing else keeps the stage, however it ends. -/
theorem copyEntries_keeps :
    Stage root entries before (before.copyEntries rules input output entries).state := by
  obtain ⟨made, told, result, hmade, hstage, _⟩ := makeOutputDirectories_keeps houtput htaken hroot
    hlisting honly (.refl _ entries before) (fun e he => by simpa using he)
    hlisting.parentsFirst.directories (by simpa using hdir)
  unfold copyEntries
  simp only [hmade]
  cases result with
  | error fault => exact hstage
  | ok _ =>
    have hready := ready_of_made houtput hroot hlisting (honly.unlinked hlisting) hdir hmade
    refine (store.processAll_keeps (P := Ready root entries before)
      (fun e he now content hready => ?_) hready).toStage
    obtain ⟨he, hkind⟩ := List.mem_filter.1 he
    exact writeOutput_keeps houtput hroot hlisting honly hready he (by simpa using hkind) content

/-- An output in which there is nothing else is filled if each file can be read and no path is too
long. -/
theorem copyEntries_isOk (rules : Rules) (hapart : before.EntriesApart input root entries)
    (hread : ∀ e ∈ entries, e.kind ≠ .directory →
      ∃ bytes, before.readFile (input.extend e.path) = .ok bytes)
    (hshort : ∀ e ∈ entries, (output.extend e.path).isTooLong = false) :
    ∃ after events report,
      before.copyEntries rules input output entries = ⟨after, events, .ok report⟩ := by
  obtain ⟨made, told, result, hmade, _, hdone⟩ := makeOutputDirectories_keeps houtput htaken hroot
    hlisting honly (.refl _ entries before) (fun e he => by simpa using he)
    hlisting.parentsFirst.directories (by simpa using hdir)
  obtain rfl := hdone fun e he => hshort e (List.mem_filter.1 he).1
  have hunlinked := honly.unlinked hlisting
  have hready := ready_of_made houtput hroot hlisting hunlinked hdir hmade
  have hfiles : ∀ e ∈ entries.filter (·.kind ≠ .directory), e ∈ entries ∧ e.kind ≠ .directory :=
    fun e he => by simpa using he
  have hdoable : ∀ e ∈ entries, e.kind ≠ .directory → Doable before input output root e :=
    fun e he hkind => ⟨hread e he hkind, Path.check_extend htaken (hshort e he),
      fun hdirectory => hkind (honly.suits hlisting he hdirectory)⟩
  obtain ⟨after, events, hall, _⟩ := hready.processAll_isOk houtput hroot hlisting hunlinked hapart
    rules hfiles (hlisting.distinct.filter _) fun e he =>
      hdoable e (hfiles e he).1 (hfiles e he).2
  unfold copyEntries
  simp only [hmade, hall, Progress.andThen]
  exact ⟨after, _, _, rfl⟩

end

/-! ## Long paths -/

/-- The directories that are made have paths that are taken. -/
theorem makeOutputDirectories_taken {fs fs' : FileSystem} {events : List Event} {dirs : List Entry}
    (hdirs : ∀ e ∈ dirs, (output.extend e.path).isEmpty = false)
    (hmade : fs.makeOutputDirectories output dirs = ⟨fs', events, .ok ()⟩) {e : Entry}
    (he : e ∈ dirs) : (output.extend e.path).check = .ok () := by
  induction dirs generalizing fs events with
  | nil => cases he
  | cons first rest ih =>
    obtain ⟨mid, more, hfirst, hrest⟩ := makeOutputDirectories_cons hmade
    rcases List.mem_cons.1 he with rfl | he
    · have hdirectory := makeDirectories_isDirectory hfirst (hdirs e List.mem_cons_self)
      obtain ⟨_, hloc, _⟩ := isDirectory_iff.1 hdirectory
      exact (locate_ok_iff.1 hloc).1
    · exact ih (fun e he => hdirs e (List.mem_cons_of_mem _ he)) hrest he

/-- A file whose path below the input or below the output is too long is not done. -/
theorem process_tooLong (rules : Rules) {e : Entry}
    (hlong : (input.extend e.path).isTooLong = true ∨ (output.extend e.path).isTooLong = true)
    (s : FileSystem) : ∃ fault, (store.process rules input output s e).result = .error fault := by
  apply FileStore.process_fails
  rcases hlong with hlong | hlong <;> obtain ⟨fault, hcheck⟩ := check_of_tooLong hlong
  · refine .inl fun bytes hread => ?_
    obtain ⟨loc, hloc, _⟩ := readFile_ok_iff.1 hread
    cases hcheck.symm.trans (locate_ok_iff.1 hloc).1
  · exact .inr fun s content => writeOutput_of_check hcheck s content

end FileSystem

end Unseal
