import Unseal.Run.Basic
import Unseal.Proofs.Run.Filling
import Unseal.Proofs.Revision
/-
  Accounts — what a report says and what was done

  A report is read off the outcomes of the files, and each outcome is of the kind
  of its file, so its counts are those of the walk whatever has happened to the
  files. What it says of single classes is told by the bytes that were read of
  them; and the methods that it counts are those that are final in what was read
  and not in what was written, since stripping clears nothing else on a method and
  what is written reads back. This holds of the files that are seen afterwards if
  each of them is still what was written for it.

  What is proved:
    1. `processAll_kinds`, `counts_ofOutcomes` — outcomes are of the kinds of their
       files, so each file is counted once.
    2. `openedMethods_delivered` — the methods that are final in what is read of a
       file and not in what is written for it are those of its record.
    3. `run_report` — what a report counts, and that it is true of what is seen if
       no link is left where the walk leads once the output has been prepared.
    4. `run_overstates` — there is a run whose report is not.
-/

namespace Unseal

/-! ## Kinds -/

/-- The kind of a file with this outcome. -/
def Outcome.kind : Outcome → EntryKind
  | .copied => .plainFile
  | _ => .classFile

theorem kind_outcome (r : Revision) (path : List Name) : (r.outcome path).kind = .classFile := by
  unfold Revision.outcome
  cases r.summary <;> rfl

namespace FileStore

variable {σ : Type} {store : FileStore σ} {rules : Rules} {input output : Path} {s s' : σ}
  {e : Entry} {read : Bytes} {outcome : Outcome} {events : List Event}

theorem Does.kind (h : store.Does rules output e read s s' outcome) (hkind : e.kind ≠ .directory) :
    outcome.kind = e.kind := by
  cases h with
  | copied hplain _ =>
    cases hcase : e.kind with
    | directory => exact absurd hcase hkind
    | plainFile => rfl
    | classFile => exact absurd hcase hplain
  | notUnderstood _ hclass _ _ => exact hclass.symm
  | revised r hclass _ _ => rw [hclass, kind_outcome]
  | refused _ _ hclass _ _ _ => exact hclass.symm

/-- Whatever becomes of files that are all done, their outcomes are of their kinds. -/
theorem processAll_kinds {files : List Entry} {outcomes : List Outcome}
    (hfiles : ∀ e ∈ files, e.kind ≠ .directory)
    (h : store.processAll rules input output s files = ⟨s', events, .ok outcomes⟩) :
    outcomes.map Outcome.kind = files.map Entry.kind := by
  induction files generalizing s events outcomes with
  | nil =>
    cases h
    rfl
  | cons e rest ih =>
    rw [processAll, Progress.andThen_ok_iff] at h
    obtain ⟨mid, told, outcome, more, hfile, hrest, _⟩ := h
    obtain ⟨late, hlate, rfl⟩ := Progress.mapBoth_ok_iff.1 hrest
    obtain ⟨read, hread⟩ : ∃ read, store.read s (input.extend e.path) = .ok read := by
      cases hread : store.read s (input.extend e.path) with
      | ok read => exact ⟨read, rfl⟩
      | error cause =>
        simp only [process, hread] at hfile
        cases hfile
    have hdoes := (process_ok_iff hread).1 ⟨told, hfile⟩
    rw [List.map_cons, List.map_cons, hdoes.kind (hfiles e List.mem_cons_self),
      ih (fun e he => hfiles e (List.mem_cons_of_mem _ he)) hlate]

end FileStore

/-! ## Counts -/

theorem count_kind_plainFile (outcomes : List Outcome) :
    outcomes.count .copied = (outcomes.map Outcome.kind).count .plainFile := by
  induction outcomes with
  | nil => rfl
  | cons outcome rest ih => cases outcome <;> simp [Outcome.kind, ih]

theorem count_kind_classFile (outcomes : List Outcome) :
    (outcomes.filterMap Outcome.transformed?).length + outcomes.count .untouched +
      (outcomes.filterMap Outcome.fallback?).length =
        (outcomes.map Outcome.kind).count .classFile := by
  induction outcomes with
  | nil => rfl
  | cons outcome rest ih =>
    cases outcome <;>
      simp [Outcome.kind, Outcome.transformed?, Outcome.fallback?, List.filterMap_cons] <;> omega

theorem count_files {kind : EntryKind} (hkind : kind ≠ .directory) (entries : List Entry) :
    ((entries.filter (·.kind ≠ .directory)).map Entry.kind).count kind =
      entries.countP (·.kind = kind) := by
  induction entries with
  | nil => rfl
  | cons e rest ih =>
    by_cases hdir : e.kind = .directory
    · have hne : ¬ e.kind = kind := fun heq => hkind (heq.symm.trans hdir)
      rw [List.filter_cons_of_neg (by simpa using hdir), ih,
        List.countP_cons_of_neg (by simpa using hne)]
    · rw [List.filter_cons_of_pos (by simpa using hdir), List.map_cons, List.count_cons, ih,
        List.countP_cons]
      simp

/-- Each file is counted once in the report on outcomes that are of the kinds of the files. -/
theorem counts_ofOutcomes {input output : Path} {entries : List Entry} {outcomes : List Outcome}
    (h : outcomes.map Outcome.kind = (entries.filter (·.kind ≠ .directory)).map Entry.kind)
    (directories : Nat) :
    (Report.ofOutcomes input output directories outcomes).copiedFiles =
        entries.countP (·.kind = .plainFile) ∧
      (Report.ofOutcomes input output directories outcomes).transformedClasses +
          (Report.ofOutcomes input output directories outcomes).untouchedClasses +
          (Report.ofOutcomes input output directories outcomes).fallbackClasses =
        entries.countP (·.kind = .classFile) := by
  refine ⟨?_, ?_⟩
  · rw [← count_files (by simp), ← h]
    exact count_kind_plainFile outcomes
  · rw [← count_files (by simp), ← h]
    exact count_kind_classFile outcomes

/-! ## Records -/

/-- The record of a file of which these bytes were read, if it is a class that is opened. -/
def transformedRecord (rules : Rules) (e : Entry) (read : Bytes) : Option TransformedClass :=
  match e.kind, ClassFile.decode read with
  | .classFile, .ok c =>
    if (rules.decide c.name c.package).isIncluded then some ⟨e.path, c.name, c.strip.2⟩ else none
  | _, _ => none

/-- The record of a file of which these bytes were read, if it is a class that is not understood. -/
def fallbackRecord (e : Entry) (read : Bytes) : Option FallbackRecord :=
  match e.kind, ClassFile.decode read with
  | .classFile, .error cause => some ⟨e.path, cause.message⟩
  | _, _ => none

variable {rules : Rules} {e : Entry} {read : Bytes}

theorem records_of_ne (hkind : e.kind ≠ .classFile) (rules : Rules) (read : Bytes) :
    transformedRecord rules e read = none ∧ fallbackRecord e read = none := by
  obtain ⟨path, kind⟩ := e
  cases kind with
  | classFile => exact absurd rfl hkind
  | directory => exact ⟨rfl, rfl⟩
  | plainFile => exact ⟨rfl, rfl⟩

theorem records_ofRead (rules : Rules) (e : Entry) (read : Bytes) :
    (Outcome.ofRead rules e read).transformed? = transformedRecord rules e read ∧
      (Outcome.ofRead rules e read).fallback? = fallbackRecord e read := by
  by_cases hkind : e.kind = .classFile
  · cases hrevise : revise rules read with
    | error cause =>
      have hdecode := revise_error_iff.1 hrevise
      simp [Outcome.ofRead, transformedRecord, fallbackRecord, hkind, hrevise, hdecode,
        Outcome.transformed?, Outcome.fallback?]
    | ok r =>
      obtain ⟨hdecode, hdecision, hsummary, _⟩ := revise_ok_iff.1 hrevise
      rw [hdecision, ClassFile.applyDecision] at hsummary
      simp only [Outcome.ofRead, transformedRecord, fallbackRecord, hkind, hrevise, hdecode,
        Revision.outcome]
      split at hsummary <;> next hincluded => simp [hsummary, hincluded, Outcome.transformed?,
        Outcome.fallback?, Revision.className]
  · obtain ⟨htransformed, hfallback⟩ := records_of_ne hkind rules read
    rw [(ofRead_of_ne hkind rules read).1, htransformed, hfallback]
    exact ⟨rfl, rfl⟩

/-! ## Methods -/

/-- The number of methods that are final in the one class and not in the other at the same place. -/
def ClassFile.openedMethods (c d : ClassFile) : Nat :=
  (c.methods.zip d.methods).countP fun (m, m') => m.access.isFinal && !m'.access.isFinal

/-- The number of methods that are final in what was read and not in what was written. -/
def openedMethods (read written : Bytes) : Nat :=
  match ClassFile.decode read, ClassFile.decode written with
  | .ok c, .ok d => c.openedMethods d
  | _, _ => 0

theorem countP_zip_map {α β : Type} (p : α × β → Bool) (f : α → β) (xs : List α) :
    (xs.zip (xs.map f)).countP p = xs.countP fun x => p (x, f x) := by
  induction xs with
  | nil => rfl
  | cons x rest ih => rw [List.map_cons, List.zip_cons_cons, List.countP_cons, List.countP_cons, ih]

theorem ClassFile.openedMethods_self (c : ClassFile) : c.openedMethods c = 0 := by
  have hself := countP_zip_map (fun (m, m') => m.access.isFinal && !m'.access.isFinal) id c.methods
  rw [List.map_id] at hself
  rw [openedMethods, hself]
  simp

theorem openedMethods_self (bs : Bytes) : openedMethods bs bs = 0 := by
  unfold openedMethods
  cases ClassFile.decode bs with
  | error cause => rfl
  | ok c => exact c.openedMethods_self

theorem ClassFile.openedMethods_strip (c : ClassFile) :
    c.openedMethods c.strip.1 = c.strip.2.methods.length := by
  have hopened : ∀ m : Method,
      (m.access.isFinal && !m.strip.access.isFinal) = m.isPublicFinal := by
    intro m
    unfold Method.strip
    cases hpublic : m.isPublicFinal with
    | true =>
      have hfinal : m.access.isFinal = true := (Bool.and_eq_true_iff.1 hpublic).2
      simp [hfinal, Access.isFinal_withoutFinal]
    | false => simp
  show c.openedMethods c.strip.1 = c.stripSummary.methods.length
  rw [openedMethods, strip_eq, countP_zip_map, stripSummary, List.length_map,
    ← List.countP_eq_length_filter]
  simp only [hopened]

/-- The methods that are final in what is read of a file and not in what is written for it are those
of its record. -/
theorem openedMethods_delivered (rules : Rules) (e : Entry) (read : Bytes) :
    openedMethods read (delivered rules e.kind read) =
      ((transformedRecord rules e read).map fun t => t.summary.methods.length).getD 0 := by
  by_cases hkind : e.kind = .classFile
  · cases hrevise : revise rules read with
    | error cause =>
      have hdecode := revise_error_iff.1 hrevise
      simp only [delivered, transformedRecord, hkind, hrevise, hdecode]
      exact openedMethods_self read
    | ok r =>
      obtain ⟨hdecode, hdecision, _, hwritten⟩ := revise_ok_iff.1 hrevise
      have hreadback := decode_applyDecision hdecode hwritten
      simp only [delivered, transformedRecord, openedMethods, hkind, hrevise, hdecode, hreadback]
      rw [← hdecision, ClassFile.applyDecision]
      split
      · exact r.source.openedMethods_strip
      · exact r.source.openedMethods_self
  · rw [(ofRead_of_ne hkind rules read).2, openedMethods_self, (records_of_ne hkind rules read).1]
    rfl

theorem foldl_filterMap_add {α β : Type} {g : α → Option β} {f : β → Nat} {size : α → Nat}
    {xs : List α} (h : ∀ x ∈ xs, size x = ((g x).map f).getD 0) (n : Nat) :
    (xs.filterMap g).foldl (fun n y => n + f y) n = xs.foldl (fun n x => n + size x) n := by
  induction xs generalizing n with
  | nil => rfl
  | cons x rest ih =>
    have hsize := h x List.mem_cons_self
    have hrest := ih fun y hy => h y (List.mem_cons_of_mem _ hy)
    cases hx : g x with
    | none =>
      rw [hx] at hsize
      rw [List.filterMap_cons_none hx, List.foldl_cons, hrest, hsize]
      rfl
    | some y =>
      rw [hx] at hsize
      rw [List.filterMap_cons_some hx, List.foldl_cons, List.foldl_cons, hrest, hsize]
      rfl

namespace FileSystem

variable {fs fs' before made now : FileSystem} {input output : Path} {root : Location}
  {entries files : List Entry} {events : List Event}

/-! ## Whole runs -/

/-- What a report says of files is true of what was there before the output was filled and of what
is there afterwards. -/
structure Truthful (rules : Rules) (input output : Path) (files : List Entry)
    (before after : FileSystem) (report : Report) : Prop where
  seen : ∀ e ∈ files, ∃ read written, before.readFile (input.extend e.path) = .ok read ∧
    after.readFile (input.extend e.path) = .ok read ∧
    after.readFile (output.extend e.path) = .ok written
  transformed : report.transformed =
    files.filterMap fun e => transformedRecord rules e (before.bytesAt (input.extend e.path))
  transformedClasses : report.transformedClasses = report.transformed.length
  fallbacks : report.fallbacks =
    files.filterMap fun e => fallbackRecord e (before.bytesAt (input.extend e.path))
  fallbackClasses : report.fallbackClasses = report.fallbacks.length
  strippedMethods : report.strippedMethods = files.foldl (fun n e => n + openedMethods
    (before.bytesAt (input.extend e.path)) (after.bytesAt (output.extend e.path))) 0

section
variable (houtput : output.segments ≠ [.blank]) (hroot : before.PathTo .thing output (.found root))
  (hlisting : Listing before input entries) (hunlinked : before.Unlinked root entries)
  (hready : Ready root entries before made) (hapart : before.EntriesApart input root entries)
  (hfiles : ∀ e ∈ files, e ∈ entries ∧ e.kind ≠ .directory)
  (hdistinct : files.Pairwise fun a b => a.path ≠ b.path)
include houtput hroot hlisting hunlinked hready hapart hfiles hdistinct

theorem truthful_of_done {rules : Rules} {outcomes : List Outcome} (directories : Nat)
    (hdone : store.processAll rules input output made files = ⟨now, events, .ok outcomes⟩) :
    Truthful rules input output files before now (.ofOutcomes input output directories outcomes) := by
  have hdoable := hready.processAll_needs houtput hroot hlisting hunlinked hapart hfiles hdone
  obtain ⟨rfl, hready', hfilled⟩ := hready.processAll_ok houtput hroot hlisting hunlinked hapart
    hfiles hdistinct hdone
  have hread : ∀ e ∈ files, before.readFile (input.extend e.path) =
      .ok (before.bytesAt (input.extend e.path)) := fun e he =>
    readFile_bytesAt (hdoable e he).readable
  have hwritten : ∀ e ∈ files, now.readFile (output.extend e.path) =
      .ok (before.deliveredFor rules input e) := by
    intro e he
    obtain ⟨above, n, hpath, _⟩ := hlisting.named e (hfiles e he).1
    have hleads := pathTo_found houtput (hready'.grows.pathTo hroot) .thing (by simp [hpath])
      (hfilled.files e he) (by simp)
    exact readFile_ok_iff.2 ⟨_, locate_ok_iff.2 ⟨(hdoable e he).taken, hleads⟩, hfilled.files e he⟩
  have htransformed : (files.map (before.outcomeOf rules input)).filterMap Outcome.transformed? =
      files.filterMap fun e => transformedRecord rules e (before.bytesAt (input.extend e.path)) := by
    rw [List.filterMap_map]
    exact congrArg (files.filterMap ·) (funext fun e => (records_ofRead rules e _).1)
  refine ⟨fun e he => ?_, htransformed, rfl, ?_, rfl, ?_⟩
  · obtain ⟨loc, hloc⟩ := hlisting.located e (hfiles e he).1
    exact ⟨_, _, hread e he, (hready'.readFile_iff hloc (hapart e (hfiles e he).1)).2 (hread e he),
      hwritten e he⟩
  · show (files.map (before.outcomeOf rules input)).filterMap Outcome.fallback? = _
    rw [List.filterMap_map]
    exact congrArg (files.filterMap ·) (funext fun e => (records_ofRead rules e _).2)
  · show ((files.map (before.outcomeOf rules input)).filterMap Outcome.transformed?).foldl
      (fun n t => n + t.summary.methods.length) 0 = _
    rw [htransformed]
    apply foldl_filterMap_add
    intro e he
    rw [bytesAt_of_readFile (hwritten e he)]
    exact openedMethods_delivered rules e _

end

/-- A report counts each entry of the walk once, whatever has become of the files. What it says of
them is true provided that no link was left where the walk leads once the output had been prepared,
and none is if the path of the output does not lead up. -/
theorem run_report {rules : Rules} {report : Report}
    (h : fs.run rules input output = ⟨fs', events, .ok report⟩) :
    ∃ prepared entries root, fs.prepareOutput output = (prepared, .ok ()) ∧
      prepared.discover input = .ok entries ∧ prepared.locate output = .ok root ∧
      report.directories = entries.countP (·.kind = .directory) ∧
      report.copiedFiles = entries.countP (·.kind = .plainFile) ∧
      report.transformedClasses + report.untouchedClasses + report.fallbackClasses =
        entries.countP (·.kind = .classFile) ∧
      (.up ∉ output.segments → prepared.Unlinked root entries) ∧
      (prepared.EntriesApart input root entries → prepared.Unlinked root entries →
        Truthful rules input output (entries.filter (·.kind ≠ .directory)) prepared fs' report) := by
  obtain ⟨hallowed, prepared, entries, made, told, more, outcomes, hprepared, hdiscover, hmade,
    hdone, _, rfl⟩ := run_parts h
  obtain ⟨hinput, houtput, hnonempty⟩ := allowRoots_ok hallowed
  obtain ⟨hdirectory, _⟩ := prepareOutput_ok hprepared hnonempty
  obtain ⟨root, hlocate, hdir⟩ := isDirectory_iff.1 hdirectory
  have hlisting := listing_of_discover hinput hdiscover
  have hfiles : ∀ e ∈ entries.filter (·.kind ≠ .directory), e ∈ entries ∧ e.kind ≠ .directory :=
    fun e he => by simpa using he
  have hkinds := FileStore.processAll_kinds (fun e he => (hfiles e he).2) hdone
  refine ⟨prepared, entries, root, hprepared, hdiscover, hlocate,
    List.countP_eq_length_filter.symm, (counts_ofOutcomes hkinds _).1, (counts_ofOutcomes hkinds _).2,
    fun hup => ?_, fun hapart hunlinked => ?_⟩
  · exact (onlyEntries_of_prepared hprepared hnonempty hlocate hup entries).unlinked hlisting
  · have hroot := (locate_ok_iff.1 hlocate).2
    exact truthful_of_done houtput hroot hlisting hunlinked
      (ready_of_made houtput hroot hlisting hunlinked hdir hmade) hapart hfiles
      (hlisting.distinct.filter _) _ hdone

/-- A tree with a class file and a copy of it under a plain name in the input, this in the output, and
this beside them. -/
def sealedTree (filled beside : List (Name × Node)) : FileSystem :=
  ⟨.directory ((inName, .directory
      [(FileStore.firstName, .file sealedBytes), (noteName, .file sealedBytes)]) ::
    (outName, .directory filled) :: beside), [], 0⟩

def sealedEntries : List Entry :=
  [⟨[FileStore.firstName], .classFile⟩, ⟨[noteName], .plainFile⟩]

/-- What is left in the output: a link with the name of the class file to that of the copy. -/
def covered : List (Name × Node) := [(FileStore.firstName, .link ⟨[.name noteName]⟩)]

def sealedRules : Rules := { Rules.none with classes := ["A"] }

/-- The class file is opened and the other one is copied. -/
def sealedOutcomes : List Outcome :=
  [.transformed [FileStore.firstName] "A" ⟨true, ["m()V"]⟩, .copied]

/-- What is told of a run that does so; no writing fails. -/
def sealedEvents (output : Path) : List Event :=
  [.inputRoot smallInput, .outputRoot output, .decided "A" .includedClass, .classOpened "A",
    .methodOpened "A" "m", .transformed "A", .fileCopy (output.extend [noteName])]

theorem sealedTree_apart (filled beside : List (Name × Node)) :
    (sealedTree filled beside).EntriesApart smallInput [outName] sealedEntries := by
  intro e he loc hloc
  simp only [sealedEntries, List.mem_cons, List.not_mem_nil, or_false] at he
  rcases he with rfl | rfl
  · obtain rfl : [inName, FileStore.firstName] = loc := Except.ok.inj hloc
    decide
  · obtain rfl : [inName, noteName] = loc := Except.ok.inj hloc
    decide

theorem run_sealedTree : (sealedTree covered []).run sealedRules smallInput straightOutput =
    ⟨sealedTree [(FileStore.firstName, .file openedBytes), (noteName, .file sealedBytes)] [],
      sealedEvents straightOutput,
      .ok (.ofOutcomes smallInput straightOutput 0 sealedOutcomes)⟩ := rfl

theorem sealedTree_report :
    (Report.ofOutcomes smallInput straightOutput 0 sealedOutcomes).copiedFiles = 1 ∧
    Truthful sealedRules smallInput straightOutput sealedEntries (sealedTree [] [])
      (sealedTree [(FileStore.firstName, .file openedBytes), (noteName, .file sealedBytes)] [])
      (.ofOutcomes smallInput straightOutput 0 sealedOutcomes) := by
  obtain ⟨prepared, entries, root, hprepared, hdiscover, hroot, _, hcopied, _, hunlinked, htruthful⟩ :=
    run_report run_sealedTree
  obtain rfl : sealedTree [] [] = prepared := congrArg Prod.fst hprepared
  obtain rfl : sealedEntries = entries := Except.ok.inj hdiscover
  obtain rfl : [outName] = root := Except.ok.inj hroot
  exact ⟨hcopied, htruthful (sealedTree_apart [] []) (hunlinked (by decide))⟩

/-- A run by a path that leads up writes the opened class through the link that is left, and then its
copy over it. It reports a method as opened, but what is read through the link is the class that was
read, on which every method is as it was. -/
theorem run_overstates :
    (sealedTree covered []).run sealedRules smallInput detourOutput =
      ⟨sealedTree (covered ++ [(noteName, .file sealedBytes)]) [(missingName, .directory [])],
        sealedEvents detourOutput,
        .ok (.ofOutcomes smallInput detourOutput 0 sealedOutcomes)⟩ ∧
    (sealedTree covered []).prepareOutput detourOutput =
      (sealedTree covered [(missingName, .directory [])], .ok ()) ∧
    (sealedTree covered [(missingName, .directory [])]).discover smallInput = .ok sealedEntries ∧
    (sealedTree covered [(missingName, .directory [])]).locate detourOutput = .ok [outName] ∧
    (sealedTree covered [(missingName, .directory [])]).EntriesApart smallInput [outName]
      sealedEntries ∧
    (Report.ofOutcomes smallInput detourOutput 0 sealedOutcomes).strippedMethods = 1 ∧
    ¬ Truthful sealedRules smallInput detourOutput sealedEntries
        (sealedTree covered [(missingName, .directory [])])
        (sealedTree (covered ++ [(noteName, .file sealedBytes)]) [(missingName, .directory [])])
        (.ofOutcomes smallInput detourOutput 0 sealedOutcomes) := by
  refine ⟨rfl, rfl, rfl, rfl, sealedTree_apart _ _, rfl, fun htruthful => ?_⟩
  have hcount : (1 : Nat) = 0 + openedMethods sealedBytes sealedBytes +
      openedMethods sealedBytes sealedBytes := htruthful.strippedMethods
  rw [openedMethods_self] at hcount
  cases hcount

end FileSystem

end Unseal
