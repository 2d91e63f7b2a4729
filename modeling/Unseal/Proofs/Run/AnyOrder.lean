import Unseal.Run.Basic
import Unseal.Proofs.Run.Filling
/-
  Any order — runs that do their files in another order

  Files that are done at the same time are done in some order, and their outcomes
  are collected in that of the walk. What is seen after all files are done is told
  for each place by the file that is written there, and no two files are written at
  one place; so neither what is seen nor what is reported depends on the order.
  No link must be left in the output for this where the walk leads: through such a
  link a file can be written at the place of another, and then the last one stays.

  What is proved:
    1. `collected_map` — what is collected is in the order of the walk.
    2. `Filled.alike` — the same is seen after files have been done in two orders.
    3. `run_anyOrder` — another order makes the same output and the same report, if
       no link is left where the walk leads once the output has been prepared.
    4. `run_by_order` — there is a run for which the order matters.
-/

namespace Unseal

/-! ## What is collected -/

/-- The outcomes of files that were done in some order, in the order of these files. -/
def collected (order : List Entry) (outcomes : List Outcome) (files : List Entry) : List Outcome :=
  files.filterMap fun e => (order.zip outcomes).lookup e

theorem lookup_zip_map {α β : Type} [DecidableEq α] (f : α → β) {x : α} {xs : List α} (hx : x ∈ xs) :
    (xs.zip (xs.map f)).lookup x = some (f x) := by
  induction xs with
  | nil => cases hx
  | cons y rest ih =>
    rw [List.map_cons, List.zip_cons_cons, List.lookup_cons]
    by_cases heq : x = y
    · rw [heq, beq_self_eq_true]
    · have hne : (x == y) = false := by simpa using heq
      rw [hne]
      exact ih ((List.mem_cons.1 hx).resolve_left heq)

/-- Outcomes that are told by the files alone are collected in the order of the files. -/
theorem collected_map {order files : List Entry} (f : Entry → Outcome)
    (h : ∀ e ∈ files, e ∈ order) : collected order (order.map f) files = files.map f := by
  induction files with
  | nil => rfl
  | cons e rest ih =>
    have hrest := ih fun e he => h e (List.mem_cons_of_mem _ he)
    rw [collected] at hrest ⊢
    rw [List.filterMap_cons, lookup_zip_map f (h e List.mem_cons_self), List.map_cons, ← hrest]

namespace FileSystem

/-! ## What is seen -/

/-- The same is seen at every place. -/
structure Alike (fs fs' : FileSystem) : Prop where
  workingDirectory : fs.workingDirectory = fs'.workingDirectory
  look : ∀ loc, fs.look loc = fs'.look loc

variable {fs fs' before made now : FileSystem} {rules : Rules} {input output : Path}
  {root : Location} {order files : List Entry} {events : List Event}

/-- The same is seen after the same files have been done in two orders. -/
theorem Filled.alike (horder : Filled rules input root order before made fs)
    (hfiles : Filled rules input root files before made fs') (hperm : order.Perm files)
    (hwd : fs.workingDirectory = fs'.workingDirectory) : fs.Alike fs' := by
  refine ⟨hwd, fun loc => ?_⟩
  by_cases hloc : ∃ e ∈ files, loc = root ++ e.path
  · obtain ⟨e, he, rfl⟩ := hloc
    rw [hfiles.files e he, horder.files e (hperm.mem_iff.2 he)]
  · have hplaces : ∀ e ∈ files, loc ≠ root ++ e.path := fun e he heq => hloc ⟨e, he, heq⟩
    rw [hfiles.elsewhere loc hplaces,
      horder.elsewhere loc fun e he => hplaces e (hperm.mem_iff.1 he)]

/-! ## Whole runs -/

/-- If the files of a run that succeeds had been done in another order, the same would be seen, and
the outcomes as they are collected would make the same report, provided that no link was left where the
walk leads once the output had been prepared. None is if the path of the output does not lead up. -/
theorem run_anyOrder {report : Report}
    (h : fs.run rules input output = ⟨fs', events, .ok report⟩) :
    ∃ prepared entries root made told, fs.prepareOutput output = (prepared, .ok ()) ∧
      prepared.discover input = .ok entries ∧ prepared.locate output = .ok root ∧
      prepared.makeOutputDirectories output (entries.filter (·.kind = .directory)) =
        ⟨made, told, .ok ()⟩ ∧
      (.up ∉ output.segments → prepared.Unlinked root entries) ∧
      (prepared.EntriesApart input root entries → prepared.Unlinked root entries →
        ∀ order, order.Perm (entries.filter (·.kind ≠ .directory)) → ∃ after told outcomes,
          store.processAll rules input output made order = ⟨after, told, .ok outcomes⟩ ∧
          after.Alike fs' ∧
          report = .ofOutcomes input output (entries.filter (·.kind = .directory)).length
            (collected order outcomes (entries.filter (·.kind ≠ .directory)))) := by
  obtain ⟨hallowed, prepared, entries, made, told, more, outcomes, hprepared, hdiscover, hmade,
    hdone, _, rfl⟩ := run_parts h
  obtain ⟨hinput, houtput, hnonempty⟩ := allowRoots_ok hallowed
  obtain ⟨hdirectory, _⟩ := prepareOutput_ok hprepared hnonempty
  obtain ⟨root, hlocate, hdir⟩ := isDirectory_iff.1 hdirectory
  have hroot := (locate_ok_iff.1 hlocate).2
  have hlisting := listing_of_discover hinput hdiscover
  refine ⟨prepared, entries, root, made, told, hprepared, hdiscover, hlocate, hmade,
    fun hup => ?_, fun hapart hunlinked order hperm => ?_⟩
  · exact (onlyEntries_of_prepared hprepared hnonempty hlocate hup entries).unlinked hlisting
  · have hready := ready_of_made houtput hroot hlisting hunlinked hdir hmade
    have hfiles : ∀ e ∈ entries.filter (·.kind ≠ .directory), e ∈ entries ∧ e.kind ≠ .directory :=
      fun e he => by simpa using he
    have hdistinct := hlisting.distinct.filter (·.kind ≠ .directory)
    have hdoable := hready.processAll_needs houtput hroot hlisting hunlinked hapart hfiles hdone
    obtain ⟨rfl, hready', hfilled⟩ := hready.processAll_ok houtput hroot hlisting hunlinked hapart
      hfiles hdistinct hdone
    obtain ⟨after, told, hall, hafter, hordered⟩ := hready.processAll_isOk houtput hroot hlisting
      hunlinked hapart rules (fun e he => hfiles e (hperm.mem_iff.1 he))
      (hperm.symm.pairwise hdistinct fun hne => hne.symm)
      (fun e he => hdoable e (hperm.mem_iff.1 he))
    refine ⟨after, told, _, hall, hordered.alike hfilled hperm ?_, ?_⟩
    · rw [hafter.grows.workingDirectory, hready'.grows.workingDirectory]
    · rw [collected_map _ fun e he => hperm.mem_iff.2 he]

/-- A tree with two files in the input, this in the output, and this beside them. -/
def pairTree (filled beside : List (Name × Node)) : FileSystem :=
  ⟨.directory ((inName, .directory [(noteName, .file [0x61]), (restName, .file [0x62])]) ::
    (outName, .directory filled) :: beside), [], 0⟩

def pairEntries : List Entry := [⟨[noteName], .plainFile⟩, ⟨[restName], .plainFile⟩]

/-- What is left in the output: a link with the name of the first file to that of the second. -/
def crossed : List (Name × Node) := [(noteName, .link ⟨[.name restName]⟩)]

theorem pairTree_apart (filled beside : List (Name × Node)) :
    (pairTree filled beside).EntriesApart smallInput [outName] pairEntries := by
  intro e he loc hloc
  simp only [pairEntries, List.mem_cons, List.not_mem_nil, or_false] at he
  rcases he with rfl | rfl
  · obtain rfl : [inName, noteName] = loc := Except.ok.inj hloc
    decide
  · obtain rfl : [inName, restName] = loc := Except.ok.inj hloc
    decide

theorem run_pairTree : (pairTree crossed []).run .none smallInput straightOutput =
    ⟨pairTree [(noteName, .file [0x61]), (restName, .file [0x62])] [],
      [.inputRoot smallInput, .outputRoot straightOutput,
        .fileCopy (straightOutput.extend [noteName]), .fileCopy (straightOutput.extend [restName])],
      .ok (.ofOutcomes smallInput straightOutput 0 [.copied, .copied])⟩ := rfl

theorem pairTree_anyOrder : ∃ after told outcomes,
    store.processAll .none smallInput straightOutput (pairTree [] []) pairEntries.reverse =
      ⟨after, told, .ok outcomes⟩ ∧
    after.Alike (pairTree [(noteName, .file [0x61]), (restName, .file [0x62])] []) ∧
    Report.ofOutcomes smallInput straightOutput 0 [.copied, .copied] =
      .ofOutcomes smallInput straightOutput 0
        (collected pairEntries.reverse outcomes pairEntries) := by
  obtain ⟨prepared, entries, root, made, _, hprepared, hdiscover, hroot, hmade, hunlinked, horder⟩ :=
    run_anyOrder run_pairTree
  obtain rfl : pairTree [] [] = prepared := congrArg Prod.fst hprepared
  obtain rfl : pairEntries = entries := Except.ok.inj hdiscover
  obtain rfl : [outName] = root := Except.ok.inj hroot
  obtain rfl : pairTree [] [] = made := congrArg Progress.state hmade
  exact horder (pairTree_apart [] []) (hunlinked (by decide)) _ (List.reverse_perm pairEntries)

/-- A run by a path that leads up writes the first file through the link that is left, at the place
of the second, and which of both is seen there is told by the order. -/
theorem run_by_order :
    (pairTree crossed []).run .none smallInput detourOutput =
      ⟨pairTree (crossed ++ [(restName, .file [0x62])]) [(missingName, .directory [])],
        [.inputRoot smallInput, .outputRoot detourOutput,
          .fileCopy (detourOutput.extend [noteName]), .fileCopy (detourOutput.extend [restName])],
        .ok (.ofOutcomes smallInput detourOutput 0 [.copied, .copied])⟩ ∧
    (pairTree crossed []).prepareOutput detourOutput =
      (pairTree crossed [(missingName, .directory [])], .ok ()) ∧
    (pairTree crossed [(missingName, .directory [])]).discover smallInput = .ok pairEntries ∧
    (pairTree crossed [(missingName, .directory [])]).locate detourOutput = .ok [outName] ∧
    (pairTree crossed [(missingName, .directory [])]).EntriesApart smallInput [outName] pairEntries ∧
    store.processAll .none smallInput detourOutput
        (pairTree crossed [(missingName, .directory [])]) pairEntries.reverse =
      ⟨pairTree (crossed ++ [(restName, .file [0x61])]) [(missingName, .directory [])],
        [.fileCopy (detourOutput.extend [restName]), .fileCopy (detourOutput.extend [noteName])],
        .ok [.copied, .copied]⟩ ∧
    ¬ Alike (pairTree (crossed ++ [(restName, .file [0x61])]) [(missingName, .directory [])])
        (pairTree (crossed ++ [(restName, .file [0x62])]) [(missingName, .directory [])]) := by
  refine ⟨rfl, rfl, rfl, rfl, pairTree_apart _ _, rfl, fun halike => ?_⟩
  have hsame : Item.file [0x61] = Item.file [0x62] :=
    Option.some.inj (halike.look [outName, restName])
  cases hsame

end FileSystem

end Unseal
