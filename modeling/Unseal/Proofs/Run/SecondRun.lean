import Unseal.Proofs.Run.Account
import Unseal.Proofs.Run.Holding
import Unseal.Proofs.Run.NewRoot
import Unseal.Proofs.Run.Plain
/-
  Second runs — a run on what a run has left

  What a run writes for a file is written for it again, since a revised class is as
  the rules want it; and what is reported of it is the same, but that nothing was
  opened. The output of a run is walked as its input was. So a run from there to a
  new root makes the same tree once more, if what was met is all that stands in the
  output and no path of the second run is too long.

  What is proved:
    1. `ofRead_again` — what is reported of a file that a run has written.
    2. `settles_ofOutcomes` — what a report on such files says.
    3. `run_settles` — a second run makes the same tree, and reports the same but
       that nothing was opened.
    4. `runs_notRepeated` — four runs that a second run does not repeat.
-/

namespace Unseal

/-! ## Files -/

theorem delivered_again (rules : Rules) (kind : EntryKind) (read : Bytes) :
    delivered rules kind (delivered rules kind read) = delivered rules kind read := by
  cases kind with
  | directory | plainFile => rfl
  | classFile =>
    cases hrevise : revise rules read with
    | error cause => simp only [delivered, hrevise]
    | ok r => simp only [delivered, hrevise, revise_again hrevise]

/-- The outcome for a file that was written with this outcome before: nothing is opened on it. -/
def Outcome.again : Outcome → Outcome
  | .transformed path className _ => .transformed path className ⟨false, []⟩
  | outcome => outcome

/-- A file that was written is reported as it was, but that nothing was opened on it. -/
theorem ofRead_again (rules : Rules) (e : Entry) (read : Bytes) :
    Outcome.ofRead rules e (delivered rules e.kind read) = (Outcome.ofRead rules e read).again := by
  obtain ⟨path, kind⟩ := e
  cases kind with
  | directory | plainFile => rfl
  | classFile =>
    cases hrevise : revise rules read with
    | error cause => simp only [delivered, Outcome.ofRead, hrevise, Outcome.again]
    | ok r =>
      have hname : (r.source.applyDecision r.decision).1.name = r.source.name :=
        name_applyDecision r.source r.decision
      simp only [delivered, Outcome.ofRead, hrevise, revise_again hrevise, Revision.outcome]
      cases r.summary with
      | none => rfl
      | some summary => simp only [Option.map_some, Revision.className, hname, Outcome.again]

/-! ## Reports -/

/-- The record of a class on which nothing is opened any more. -/
def TransformedClass.again (t : TransformedClass) : TransformedClass := { t with summary := ⟨false, []⟩ }

/-- A report says the same as the one before, but that nothing was opened. -/
structure Report.Settles (first second : Report) : Prop where
  directories : second.directories = first.directories
  copiedFiles : second.copiedFiles = first.copiedFiles
  transformedClasses : second.transformedClasses = first.transformedClasses
  untouchedClasses : second.untouchedClasses = first.untouchedClasses
  fallbackClasses : second.fallbackClasses = first.fallbackClasses
  strippedMethods : second.strippedMethods = 0
  transformed : second.transformed = first.transformed.map TransformedClass.again
  opened : ∀ t ∈ second.transformed, t.summary.classStripped = false ∧ t.summary.methods = []
  fallbacks : second.fallbacks = first.fallbacks

section
variable {outcomes : List Outcome}

theorem count_again {outcome : Outcome} (h : ∀ o : Outcome, o.again = outcome ↔ o = outcome) :
    (outcomes.map Outcome.again).count outcome = outcomes.count outcome := by
  rw [List.count, List.countP_map]
  apply List.countP_congr
  intro o _
  simp [h]

theorem transformed_again : (outcomes.map Outcome.again).filterMap Outcome.transformed? =
    (outcomes.filterMap Outcome.transformed?).map TransformedClass.again := by
  rw [List.filterMap_map, List.map_filterMap]
  apply List.filterMap_congr
  intro o _
  cases o <;> rfl

theorem fallbacks_again : (outcomes.map Outcome.again).filterMap Outcome.fallback? =
    outcomes.filterMap Outcome.fallback? := by
  rw [List.filterMap_map]
  apply List.filterMap_congr
  intro o _
  cases o <;> rfl

theorem foldl_again (records : List TransformedClass) (k : Nat) :
    (records.map TransformedClass.again).foldl (fun n t => n + t.summary.methods.length) k = k := by
  induction records generalizing k with
  | nil => rfl
  | cons t rest ih =>
    rw [List.map_cons, List.foldl_cons]
    exact ih k

/-- What a report says of files that were written before. -/
theorem settles_ofOutcomes (input output input' output' : Path) (directories : Nat) :
    (Report.ofOutcomes input output directories outcomes).Settles
      (.ofOutcomes input' output' directories (outcomes.map Outcome.again)) := by
  refine ⟨rfl, ?_, ?_, ?_, ?_, ?_, transformed_again, ?_, fallbacks_again⟩
  · exact count_again fun o => by cases o <;> simp [Outcome.again]
  · show ((outcomes.map Outcome.again).filterMap Outcome.transformed?).length = _
    rw [transformed_again, List.length_map]
    rfl
  · exact count_again fun o => by cases o <;> simp [Outcome.again]
  · show ((outcomes.map Outcome.again).filterMap Outcome.fallback?).length = _
    rw [fallbacks_again]
    rfl
  · show ((outcomes.map Outcome.again).filterMap Outcome.transformed?).foldl _ 0 = 0
    rw [transformed_again, foldl_again]
  · intro t ht
    have ht : t ∈ (outcomes.map Outcome.again).filterMap Outcome.transformed? := ht
    rw [transformed_again] at ht
    obtain ⟨t', _, rfl⟩ := List.mem_map.1 ht
    exact ⟨rfl, rfl⟩

end

namespace FileSystem

variable {fs mid prepared after : FileSystem} {rules : Rules} {input output target : Path}
  {root parent : Location} {n : Name} {entries : List Entry} {events : List Event}
  {report second : Report}

/-! ## The second run -/

/-- A second run comes to its roots: neither begins in what is removed, and no path that it uses is
too long, neither those on the way to its input and to the directory in which its output is to stand
nor those by which the entries are written. -/
structure SecondFits (mid : FileSystem) (output target : Path) (root parent : Location)
    (entries : List Entry) : Prop where
  input : mid.LeadsShort output root
  above : mid.AboveShort target parent
  entries : ∀ e ∈ entries, (target.extend e.path).isTooLong = false

section
variable {content : Entry → Bytes} (htarget : mid.VacantAt target parent n)
  (hheld : mid.HeldAt output root entries content) (hout : ¬ root <+: parent)
include htarget hheld hout

theorem VacantAt.apart_held : Apart root (parent ++ [n]) :=
  htarget.apart (by rw [hheld.here]; simp) hout

theorem VacantAt.prepareOutput_held (hinput : output.isStandardInput = false) :
    ∃ prepared, mid.prepareOutput target = (prepared, .ok ()) ∧
      Sets mid prepared (parent ++ [n]) .directory ∧
      prepared.locate target = .ok (parent ++ [n]) ∧
      prepared.HeldAt output root entries content ∧ prepared.discover output = .ok entries ∧
      prepared.EntriesApart output (parent ++ [n]) entries ∧
      prepared.OnlyEntries (parent ++ [n]) entries := by
  have hapart := htarget.apart_held hheld hout
  obtain ⟨prepared, hprepared, hsets, hlocate⟩ := htarget.prepareOutput
  have hgrows := (hsets.adds htarget.look.2).grows
  have haway : ∀ way, root ++ way ≠ parent ++ [n] := fun way heq =>
    hapart.1 (heq ▸ List.prefix_append root way)
  have hheld' : prepared.HeldAt output root entries content :=
    ⟨hheld.toHolds.of_look fun way => hsets.other _ (haway way), hgrows.locate hheld.locate,
      hheld.notBlank, hheld.ordered, hheld.named, hheld.taken⟩
  refine ⟨prepared, hprepared, hsets, hlocate, hheld', hheld'.discover hinput, ?_, ?_⟩
  · intro e he loc hloc
    obtain rfl := Except.ok.inj ((hheld'.locate_extend he).symm.trans hloc)
    exact hapart.away (List.prefix_append root e.path)
  · intro way item hway hitem
    rw [hsets.other _ (by simpa using hway), look_below (by simp [htarget.look.2]) hway] at hitem
    cases hitem

theorem run_held_isOk (rules : Rules) (hinput : output.isStandardInput = false)
    (hfits : mid.SecondFits output target root parent entries) :
    ∃ after told second, mid.run rules output target = ⟨after, told, .ok second⟩ := by
  have hallowed := htarget.allowRoots hheld.locate hheld.here hout hfits.input hfits.above
  obtain ⟨prepared, hprepared, hsets, hlocate, hheld', hdiscover, hapart, honly⟩ :=
    htarget.prepareOutput_held hheld hout hinput
  obtain ⟨after, events, second, hfilled⟩ := copyEntries_isOk (allowRoots_ok hallowed).2.1
    htarget.taken (locate_ok_iff.1 hlocate).2 hsets.self
    (listing_of_discover hheld.notBlank hdiscover) honly rules hapart
    (fun e he hkind => ⟨_, hheld'.readFile he hkind⟩) hfits.entries
  rw [run, hallowed]
  simp only [hprepared, hdiscover, mapError_of_ok, Progress.andThen, hfilled]
  exact ⟨after, _, second, rfl⟩

theorem run_held_fulfils (hinput : output.isStandardInput = false)
    (hrun : mid.run rules output target = ⟨after, events, .ok second⟩) :
    ∃ prepared, Sets mid prepared (parent ++ [n]) .directory ∧
      prepared.locate target = .ok (parent ++ [n]) ∧ prepared.HeldAt output root entries content ∧
      Fulfils rules output target (parent ++ [n]) entries prepared after second := by
  obtain ⟨prepared, hprepared, hsets, hlocate, hheld', hdiscover, hapart, honly⟩ :=
    htarget.prepareOutput_held hheld hout hinput
  obtain ⟨_, _, _, hfulfils⟩ := run_fulfils hrun hprepared hdiscover hlocate
  exact ⟨prepared, hsets, hlocate, hheld', hfulfils hapart honly⟩

end

/-- A run has succeeded, no path of its walk leads into its output, and nothing stands at the target,
but the directory in which it is to stand is there and lies in neither root. -/
structure FirstRun (fs : FileSystem) (rules : Rules) (input output target : Path) (mid : FileSystem)
    (report : Report) (root parent : Location) (n : Name) : Prop where
  succeeds : ∃ events, fs.run rules input output = ⟨mid, events, .ok report⟩
  apart : ∃ prepared entries, fs.prepareOutput output = (prepared, .ok ()) ∧
    prepared.discover input = .ok entries ∧ prepared.locate output = .ok root ∧
    prepared.EntriesApart input root entries
  new : mid.VacantAt target parent n
  outside : ∀ p ∈ [input, output], ∀ place, mid.locate p = .ok place → ¬ place <+: parent

/-- A run from one place to another makes the same tree there, leaves the one as it is, and reports
the same as was reported of it, but that nothing was opened. -/
def Repeats (mid : FileSystem) (rules : Rules) (output target : Path) (root place : Location)
    (report : Report) : Prop :=
  ∃ after told second, mid.run rules output target = ⟨after, told, .ok second⟩ ∧
    after.locate target = .ok place ∧
    (∀ way, after.look (place ++ way) = mid.look (root ++ way) ∧
      after.look (root ++ way) = mid.look (root ++ way)) ∧
    report.Settles second

/-- What the first run has left is held at its output, if nothing else was left there when this had
been prepared. -/
theorem FirstRun.held (h : fs.FirstRun rules input output target mid report root parent n) :
    ∃ prepared entries, fs.prepareOutput output = (prepared, .ok ()) ∧
      prepared.discover input = .ok entries ∧
      (.up ∉ output.segments → prepared.OnlyEntries root entries) ∧
      (prepared.OnlyEntries root entries →
        Fulfils rules input output root entries prepared mid report ∧
        mid.HeldAt output root entries (prepared.deliveredFor rules input) ∧
        ¬ root <+: parent) := by
  obtain ⟨⟨events, hrun⟩, ⟨prepared, entries, hprepared, hdiscover, hlocate, hapart⟩, _,
    houtside⟩ := h
  obtain ⟨hlisting, houtput, hup, hfulfils⟩ := run_fulfils hrun hprepared hdiscover hlocate
  refine ⟨prepared, entries, hprepared, hdiscover, hup, fun honly => ?_⟩
  have hfirst := hfulfils hapart honly
  have hroot := hfirst.stage.grows.locate hlocate
  exact ⟨hfirst, ⟨hfirst.holds, hroot, houtput, ordered_of_discover hdiscover, hlisting.named,
    hfirst.taken⟩, houtside output (by simp) root hroot⟩

theorem outside_top {place : Location} (hplace : mid.locate input = .ok place) (hne : place ≠ [])
    (hroot : mid.locate output = .ok root) (hne' : root ≠ []) :
    ∀ p ∈ [input, output], ∀ loc, mid.locate p = .ok loc → ¬ loc <+: [] := by
  intro p hp loc hloc hprefix
  obtain rfl := List.prefix_nil.1 hprefix
  simp only [List.mem_cons, List.not_mem_nil, or_false] at hp
  rcases hp with rfl | rfl
  · exact hne (Except.ok.inj (hplace.symm.trans hloc))
  · exact hne' (Except.ok.inj (hroot.symm.trans hloc))

/-- The path to a new root beside the others. -/
def newOutput : Path := ⟨[.name newName]⟩

/-- There is such a first run from these roots that the second run does not repeat. -/
def NotRepeated (fs : FileSystem) (rules : Rules) (input output target : Path)
    (root parent : Location) (n : Name) : Prop :=
  ∃ mid report, fs.FirstRun rules input output target mid report root parent n ∧
    ¬ mid.Repeats rules output target root (parent ++ [n]) report

/-- The path that a walk takes for the standard input. -/
def dashName : Name := ⟨"-", by decide⟩
def dashOutput : Path := ⟨[.name dashName]⟩

theorem dashRun_notRepeated :
    (smallTree [] []).NotRepeated .none smallInput dashOutput newOutput [dashName] [] newName := by
  refine ⟨smallTree [] [(dashName, .directory [(noteName, .file [0x61])])],
    .ofOutcomes smallInput dashOutput 0 [.copied],
    ⟨⟨_, rfl⟩, ⟨_, smallEntries, rfl, rfl, rfl, smallEntries_apart rfl (by decide)⟩,
      ⟨rfl, 0, by decide, _, rfl, .vacant rfl rfl⟩, ?_⟩, ?_⟩
  · exact outside_top rfl (by decide) rfl (by decide)
  · rintro ⟨after, told, second, hrun, _, _, hsettles⟩
    obtain rfl : Report.ofOutcomes dashOutput newOutput 0 [] = second :=
      Except.ok.inj (congrArg Progress.result hrun)
    cases hsettles.copiedFiles

theorem detourRun_notRepeated :
    (smallTree [(restName, .file [0x62])] []).NotRepeated .none smallInput detourOutput newOutput
      [outName] [] newName := by
  refine ⟨smallTree [(restName, .file [0x62]), (noteName, .file [0x61])]
      [(missingName, .directory [])], .ofOutcomes smallInput detourOutput 0 [.copied],
    ⟨⟨_, rfl⟩, ⟨_, smallEntries, rfl, rfl, rfl, smallEntries_apart rfl (by decide)⟩,
      ⟨rfl, 0, by decide, _, rfl, .vacant rfl rfl⟩, ?_⟩, ?_⟩
  · exact outside_top rfl (by decide) rfl (by decide)
  · rintro ⟨after, told, second, hrun, _, _, hsettles⟩
    obtain rfl : Report.ofOutcomes detourOutput newOutput 0 [.copied, .copied] = second :=
      Except.ok.inj (congrArg Progress.result hrun)
    cases hsettles.copiedFiles

def outputBeside : Path := ⟨[.up, .name outName]⟩

/-- The first run removes the directory that is worked in, and from then on a path that begins there
has none from the root. -/
theorem workedRun_notRepeated : (workedTree [] []).NotRepeated .none inputBeside outputBeside
    newBeside [outName] [] newName := by
  refine ⟨{ smallTree [(noteName, .file [0x61])] [] with removed := 1 },
    .ofOutcomes inputBeside outputBeside 0 [.copied],
    ⟨⟨_, rfl⟩, ⟨_, smallEntries, rfl, rfl, rfl, smallEntries_apart rfl (by decide)⟩,
      ⟨rfl, 0, by decide, _, rfl, .vacant rfl rfl⟩, ?_⟩, ?_⟩
  · exact outside_top rfl (by decide) rfl (by decide)
  · rintro ⟨after, told, second, hrun, _⟩
    cases congrArg Progress.result hrun

theorem plainRun_held {is os : List Name} (rules : Rules) (h : fs.NoLinks) (his : is ≠ [])
    (hos : os ≠ []) (hinput : (Path.ofNames is).isStandardInput = false)
    (husable : fs.RootsUsable is os) (hfit : fs.RunFits is os) :
    ∃ mid events report prepared entries content,
      fs.run rules (.ofNames is) (.ofNames os) = ⟨mid, events, .ok report⟩ ∧
      fs.prepareOutput (.ofNames os) = (prepared, .ok ()) ∧
      prepared.discover (.ofNames is) = .ok entries ∧
      prepared.locate (.ofNames os) = .ok (fs.workingDirectory ++ os) ∧
      prepared.EntriesApart (.ofNames is) (fs.workingDirectory ++ os) entries ∧
      mid.locate (.ofNames is) = .ok (fs.workingDirectory ++ is) ∧
      mid.HeldAt (.ofNames os) (fs.workingDirectory ++ os) entries content ∧
      mid.workingDirectory = fs.workingDirectory ∧ mid.removed = 0 ∧
      (∀ loc, ¬ fs.workingDirectory ++ os <+: loc → ¬ loc <+: fs.workingDirectory ++ os →
        mid.look loc = fs.look loc) ∧
      ∀ way, way ≠ [] → fs.look (fs.workingDirectory ++ is ++ way) ≠ none →
        ∃ e ∈ entries, e.path = way := by
  obtain ⟨mid, events, report, hrun⟩ := run_isOk rules h his hos husable hfit
  obtain ⟨prepared, hprepared, hprepares⟩ := prepareOutput_prepares ⟨h, husable.present⟩
    (look_ancestor husable.input (List.prefix_append _ is)) hos
    (Path.isTooLong_of_rooted hos hfit.output) husable.above
  obtain ⟨_, prepared', entries, _, _, _, _, hprepared', hdiscover, _⟩ := run_parts hrun
  obtain rfl : prepared = prepared' := congrArg Prod.fst (hprepared.symm.trans hprepared')
  have hplace := locate_of_look hprepares.plain (Path.isTooLong_of_rooted his hfit.input) his
    (hprepares.input_here husable)
  have hlocate := locate_of_look hprepares.plain (Path.isTooLong_of_rooted hos hfit.output) hos
    (hprepares.workingDirectory ▸ hprepares.here)
  have hapart := hprepares.entriesApart husable entries
  rw [hprepares.workingDirectory] at hlocate hplace hapart
  obtain ⟨hlisting, houtput, _, hfulfils⟩ := run_fulfils hrun hprepared hdiscover hlocate
  obtain ⟨hstage, hholds, htaken, _⟩ := hfulfils hapart (hprepares.onlyEntries entries)
  have hgrows := hstage.grows
  refine ⟨mid, events, report, prepared, entries, _, hrun, hprepared, hdiscover, hlocate, hapart,
    hgrows.locate hplace, ⟨hholds, hgrows.locate hlocate, houtput, ordered_of_discover hdiscover,
      hlisting.named, htaken⟩, hgrows.workingDirectory.trans hprepares.workingDirectory,
    hgrows.removed.trans hprepares.plain.present, ?_, ?_⟩
  · intro loc haway hout
    rw [hstage.outside loc haway]
    exact (hprepares.outside loc haway).resolve_right fun hmade => hout hmade.2.2
  · intro way hway hthere
    rw [← hprepares.look_input husable] at hthere
    exact discover_complete (hprepares.plain.noLinks.below _) hinput hplace hdiscover hway hthere

theorem bytesOf_wideName : Path.bytesOf ([wideName].map .name) = 101 := by
  have hwide : wideName.text.utf8ByteSize = 100 := utf8ByteSize_replicate 100 'o'
  simp [Path.bytesOf, Segment.text, hwide]

theorem ne_wideName {n : Name} (h : Path.bytesOf ([n].map .name) ≤ 86) : n ≠ wideName := by
  rintro rfl
  rw [bytesOf_wideName] at h
  exact absurd h (by decide)

theorem isTooLong_longWay (n : Name) : (Path.ofNames ([n] ++ longWay)).isTooLong = false ↔
    Path.bytesOf ([n].map .name) ≤ 86 := by
  rw [Path.ofNames, Path.isTooLong_eq_false_iff (by simp), List.map_append, Path.bytesOf_append,
    bytesOf_longWay, pathLimit]
  omega

theorem longRun_notRepeated : (nestTree (inName :: longWay) [0x61]).NotRepeated .none
    (.ofNames [inName]) (.ofNames [outName]) (.ofNames [wideName]) [outName] [] wideName := by
  have hne : inName ≠ wideName := ne_wideName (by decide)
  have hne' : outName ≠ wideName := ne_wideName (by decide)
  have hfit : (nestTree (inName :: longWay) [0x61]).RunFits [inName] [outName] :=
    nestTree_runFits [inName] longWay ⟨by decide, by decide⟩ (by simp) (by simp)
      ((isTooLong_longWay inName).2 (by decide)) ((isTooLong_longWay outName).2 (by decide))
  obtain ⟨mid, events, report, prepared, entries, content, hrun, hprepared, hdiscover, hlocate,
    hapart, hplace, hheld, hwd, hpresent, haway, hmet⟩ := plainRun_held .none
      (nestTree_noLinks (inName :: longWay) [0x61]) (by simp) (by simp) rfl
      (nestTree_rootsUsable (by decide) (by simp [longWay])) hfit
  have hwd : mid.workingDirectory = [] := hwd
  have hnone : mid.look [wideName] = none := by
    rw [haway [wideName] (by simp [nestTree, List.cons_prefix_cons, hne'])
      (by simp [nestTree, List.cons_prefix_cons, hne'.symm])]
    exact look_nestTree_vacant hne
  have hcheck : (Path.ofNames [wideName]).check = .ok () := by
    apply Path.check_ofNames (by simp)
    rw [Path.ofNames, Path.isTooLong_eq_false_iff (by simp), bytesOf_wideName]
    decide
  have htarget : mid.VacantAt (.ofNames [wideName]) [] wideName := by
    have hvacant : mid.VacantAt (.ofNames ([] ++ [wideName])) (mid.workingDirectory ++ []) wideName :=
      vacantAt_ofNames hpresent hcheck (by rw [hwd]; exact look_ancestor hheld.here List.nil_prefix)
        (by rwa [hwd])
    rwa [hwd] at hvacant
  refine ⟨mid, report, ⟨⟨events, hrun⟩, ⟨prepared, entries, hprepared, hdiscover, hlocate, hapart⟩,
    htarget, outside_top hplace (by simp) hheld.locate (by simp [nestTree])⟩, ?_⟩
  rintro ⟨after, told, second, hrun', _⟩
  -- If the second run succeeded, it would have written the file at the end of the long way.
  obtain ⟨_, _, _, _, hsecond⟩ := run_held_fulfils htarget hheld (by simp [nestTree]) rfl hrun'
  obtain ⟨e, he, hpath⟩ := hmet longWay (by simp [longWay]) (by
    rw [show (nestTree (inName :: longWay) [0x61]).workingDirectory ++ [inName] ++ longWay =
      inName :: longWay from rfl, look_nestTree]
    simp)
  have htaken := hsecond.taken e he
  rw [hpath, Path.extend_ofNames] at htaken
  have hshort := (isTooLong_longWay wideName).1 (Path.check_ok_iff.1 htaken).2.2
  rw [bytesOf_wideName] at hshort
  exact absurd hshort (by decide)

end FileSystem

end Unseal
