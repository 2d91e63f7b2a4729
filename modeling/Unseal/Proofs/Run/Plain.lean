import Unseal.Proofs.PlainWalk
import Unseal.Proofs.Run.CleanFilling
import Unseal.Proofs.Run.PlainRoots
/-
  Plain runs — runs in a tree without links

  When the output has been prepared, everything that a run still does succeeds in
  such a tree, unless a path is too long. So a run succeeds exactly if its roots
  may be used, provided that its paths are short enough, and one that does not
  succeed then changes nothing. A run that fails on a long path may have changed
  the output and have made directories above it, but nothing else.

  What is proved:
    1. `run_changes` — what a run can have changed when it ends.
    2. `run_isOk`, `run_ok_fits` — a run succeeds if its roots may be used and no
       path is too long, and if it succeeds no path was.
    3. `run_plain` — when a run succeeds, and what it changes.
    4. `longRun_fails` — a path that is too long makes a run fail when the output
       has been made.
-/

namespace Unseal

namespace FileSystem

variable {fs prepared after : FileSystem} {rules : Rules} {root : Location} {is os : List Name}
  {events : List Event} {result : Except RunFault Report}

/-! ## Whole runs -/

/-- No path that a run uses is too long. -/
structure RunFits (fs : FileSystem) (is os : List Name) : Prop extends RootsFit fs is os where
  entries : ∀ way, fs.look (fs.workingDirectory ++ is ++ way) ≠ none →
    (Path.ofNames (is ++ way)).isTooLong = false ∧ (Path.ofNames (os ++ way)).isTooLong = false

theorem RootsUsable.away (husable : fs.RootsUsable is os) (way : List Name) :
    ¬ fs.workingDirectory ++ os <+: fs.workingDirectory ++ is ++ way ∧
      ¬ fs.workingDirectory ++ is ++ way <+: fs.workingDirectory ++ os := by
  rw [List.append_assoc, List.prefix_append_right_inj, List.prefix_append_right_inj]
  refine ⟨husable.apart.away (List.prefix_append is way), fun hprefix => ?_⟩
  exact husable.apart.1 ((List.prefix_append is way).trans hprefix)

theorem Prepares.look_input (hprepares : Prepares fs prepared (fs.workingDirectory ++ os))
    (husable : fs.RootsUsable is os) (way : List Name) :
    prepared.look (fs.workingDirectory ++ is ++ way) = fs.look (fs.workingDirectory ++ is ++ way) := by
  obtain ⟨haway, habove⟩ := husable.away way
  rcases hprepares.outside _ haway with hsame | ⟨_, _, hprefix⟩
  · exact hsame
  · exact absurd hprefix habove

theorem Prepares.input_here (hprepares : Prepares fs prepared (fs.workingDirectory ++ os))
    (husable : fs.RootsUsable is os) :
    prepared.look (prepared.workingDirectory ++ is) = some .directory := by
  have hsame := hprepares.look_input husable []
  rwa [List.append_nil, husable.input, ← hprepares.workingDirectory] at hsame

theorem Prepares.onlyEntries (hprepares : Prepares fs prepared root) (entries : List Entry) :
    prepared.OnlyEntries root entries := by
  intro way item hway hitem
  rw [hprepares.empty way hway] at hitem
  cases hitem

theorem run_stage (hos : os ≠ []) (hallowed : fs.allowRoots (.ofNames is) (.ofNames os) = .ok ())
    (hprepared : fs.prepareOutput (.ofNames os) = (prepared, .ok ()))
    (hprepares : Prepares fs prepared (fs.workingDirectory ++ os))
    (hrun : fs.run rules (.ofNames is) (.ofNames os) = ⟨after, events, result⟩) :
    ∃ entries, Stage (fs.workingDirectory ++ os) entries prepared after := by
  rw [run, hallowed] at hrun
  simp only [hprepared] at hrun
  rw [← hprepares.workingDirectory] at hprepares ⊢
  cases hdiscover : prepared.discover (.ofNames is) with
  | error fault =>
    rw [hdiscover] at hrun
    cases hrun
    exact ⟨[], .refl _ [] prepared⟩
  | ok entries =>
    have hfilled : (prepared.copyEntries rules (.ofNames is) (.ofNames os) entries).state = after := by
      rw [hdiscover] at hrun
      exact congrArg Progress.state hrun
    have hempty : (Path.ofNames os).isEmpty = false := by
      simp [Path.isEmpty, Path.ofNames, hos]
    obtain ⟨_, hloc, _⟩ := isDirectory_iff.1 (prepareOutput_ok hprepared hempty).1
    rw [← hfilled]
    exact ⟨entries, copyEntries_keeps (Path.ofNames_ne_blank os) (locate_ok_iff.1 hloc).1
      (pathTo_ofNames hprepares.plain.present hprepares.here (by simp)) hprepares.here
      (listing_of_discover (Path.ofNames_ne_blank is) hdiscover) (hprepares.onlyEntries entries)⟩

/-- A run leaves everything as it was, or it prepares the output and only puts there what it has
met. -/
theorem run_changes (h : fs.NoLinks) (hos : os ≠ [])
    (hrun : fs.run rules (.ofNames is) (.ofNames os) = ⟨after, events, result⟩) :
    (after = fs ∧ ∃ fault, result = .error fault) ∨
      (fs.RootsUsable is os ∧ ∃ prepared entries,
        Prepares fs prepared (fs.workingDirectory ++ os) ∧
        Stage (fs.workingDirectory ++ os) entries prepared after) := by
  rcases run_begins rules h hos with
    ⟨told, fault, hrefused⟩ | ⟨husable, hallowed, prepared, hprepared, hprepares⟩
  · rw [hrefused] at hrun
    cases hrun
    exact .inl ⟨rfl, fault, rfl⟩
  · obtain ⟨entries, hstage⟩ := run_stage hos hallowed hprepared hprepares hrun
    exact .inr ⟨husable, prepared, entries, hprepares, hstage⟩

theorem run_makes_output (h : fs.NoLinks) (his : is ≠ []) (hos : os ≠ [])
    (husable : fs.RootsUsable is os) (hfit : fs.RootsFit is os)
    (hrun : fs.run rules (.ofNames is) (.ofNames os) = ⟨after, events, result⟩) :
    after.look (fs.workingDirectory ++ os) = some .directory := by
  obtain ⟨prepared, hprepared, hprepares⟩ := prepareOutput_prepares ⟨h, husable.present⟩
    (look_ancestor husable.input (List.prefix_append _ is)) hos
    (Path.isTooLong_of_rooted hos hfit.output) husable.above
  obtain ⟨entries, hstage⟩ := run_stage hos (allowRoots_isOk h his hos husable hfit) hprepared
    hprepares hrun
  exact hstage.grows.directory hprepares.here

section
variable (hprepares : Prepares fs prepared (fs.workingDirectory ++ os))
  (husable : fs.RootsUsable is os)
include hprepares husable

theorem Prepares.fits (hfit : fs.RunFits is os) {way : List Name}
    (hthere : prepared.look (prepared.workingDirectory ++ is ++ way) ≠ none) :
    (Path.ofNames (is ++ way)).isTooLong = false ∧ (Path.ofNames (os ++ way)).isTooLong = false := by
  rw [hprepares.workingDirectory, hprepares.look_input husable] at hthere
  exact hfit.entries way hthere

theorem Prepares.entriesApart (entries : List Entry) :
    prepared.EntriesApart (.ofNames is) (prepared.workingDirectory ++ os) entries := by
  intro e _ loc hloc
  rw [Path.extend_ofNames] at hloc
  obtain rfl := locate_ofNames hprepares.plain.noLinks hloc
  rw [← List.append_assoc, hprepares.workingDirectory]
  exact (husable.away e.path).1

end

/-- A run succeeds if its roots may be used and no path is too long. -/
theorem run_isOk (rules : Rules) (h : fs.NoLinks) (his : is ≠ []) (hos : os ≠ [])
    (husable : fs.RootsUsable is os) (hfit : fs.RunFits is os) : ∃ after events report,
    fs.run rules (.ofNames is) (.ofNames os) = ⟨after, events, .ok report⟩ := by
  have hallowed := allowRoots_isOk h his hos husable hfit.toRootsFit
  have hcwd := look_ancestor husable.input (List.prefix_append _ is)
  obtain ⟨prepared, hprepared, hprepares⟩ := prepareOutput_prepares ⟨h, husable.present⟩ hcwd hos
    (Path.isTooLong_of_rooted hos hfit.output) husable.above
  have hplain := hprepares.plain
  have hplace : prepared.locate (.ofNames is) = .ok (prepared.workingDirectory ++ is) :=
    locate_of_look hplain (Path.isTooLong_of_rooted his hfit.input) his (hprepares.input_here husable)
  obtain ⟨entries, hdiscover⟩ : ∃ entries, prepared.discover (.ofNames is) = .ok entries := by
    apply discover_isOk (hplain.noLinks.below _) _ hplace
    intro way hway
    rw [Path.extend_ofNames]
    exact (hprepares.fits husable hfit (by rw [hway]; simp)).1
  have hstanding : ∀ e ∈ entries, (e.kind = .directory →
      prepared.look (prepared.workingDirectory ++ is ++ e.path) = some .directory) ∧
      (e.kind ≠ .directory → ∃ content,
        prepared.look (prepared.workingDirectory ++ is ++ e.path) = some (.file content)) :=
    fun e he => (walks_of_discover hplace hdiscover).standing (hplain.noLinks.below _)
      (List.append_nil _).symm he
  have hshort : ∀ e ∈ entries, (Path.ofNames (is ++ e.path)).isTooLong = false ∧
      (Path.ofNames (os ++ e.path)).isTooLong = false := by
    intro e he
    apply hprepares.fits husable hfit
    by_cases hkind : e.kind = .directory
    · rw [(hstanding e he).1 hkind]
      simp
    · obtain ⟨content, hfile⟩ := (hstanding e he).2 hkind
      rw [hfile]
      simp
  have hread : ∀ e ∈ entries, e.kind ≠ .directory →
      ∃ bytes, prepared.readFile ((Path.ofNames is).extend e.path) = .ok bytes := by
    intro e he hkind
    obtain ⟨content, hfile⟩ := (hstanding e he).2 hkind
    rw [Path.extend_ofNames]
    refine ⟨content, readFile_ok_iff.2 ⟨_, ?_, hfile⟩⟩
    rw [List.append_assoc] at hfile ⊢
    exact locate_of_look hplain (hshort e he).1 (List.append_ne_nil_of_left_ne_nil his _) hfile
  have hapart := hprepares.entriesApart husable entries
  rw [← hprepares.workingDirectory] at hprepares
  have htaken := Path.check_ofNames hos (Path.isTooLong_of_rooted hos hfit.output)
  obtain ⟨after, events, report, hfilled⟩ := copyEntries_isOk (Path.ofNames_ne_blank os) htaken
    (pathTo_ofNames hprepares.plain.present hprepares.here (by simp)) hprepares.here
    (listing_of_discover (Path.ofNames_ne_blank is) hdiscover) (hprepares.onlyEntries entries)
    rules hapart hread fun e he => by rw [Path.extend_ofNames]; exact (hshort e he).2
  rw [run, hallowed]
  simp only [hprepared, hdiscover, mapError_of_ok, Progress.andThen, hfilled]
  exact ⟨after, _, _, rfl⟩

/-- The paths of a run that succeeds are not too long. -/
theorem run_ok_fits (h : fs.NoLinks) (his : is ≠ []) (hos : os ≠ []) {report : Report}
    (hinput : (Path.ofNames is).isStandardInput = false)
    (hrun : fs.run rules (.ofNames is) (.ofNames os) = ⟨after, events, .ok report⟩)
    {way : List Name} (hway : way ≠ [])
    (hthere : fs.look (fs.workingDirectory ++ is ++ way) ≠ none) :
    (Path.ofNames (is ++ way)).isTooLong = false ∧ (Path.ofNames (os ++ way)).isTooLong = false := by
  rcases run_begins rules h hos with
    ⟨told, fault, hrefused⟩ | ⟨husable, hallowed, prepared, hprepared, hprepares⟩
  · rw [hrefused] at hrun
    cases hrun
  · obtain ⟨_, prepared', entries, made, told, more, outcomes, hprepared', hdiscover, hmade, hdone,
      _⟩ := run_ok hrun
    obtain rfl : prepared = prepared' := congrArg Prod.fst (hprepared.symm.trans hprepared')
    obtain ⟨_, _, hplace, _⟩ := allowRoots_compared hallowed
    have hlocate := locate_of_look hprepares.plain
      (Path.check_ok_iff.1 (locate_ok_iff.1 hplace).1).2.2 his (hprepares.input_here husable)
    rw [← hprepares.look_input husable, ← hprepares.workingDirectory] at hthere
    obtain ⟨e, he, rfl⟩ := discover_complete (hprepares.plain.noLinks.below _) hinput hlocate hdiscover
      hway hthere
    have hlisting := listing_of_discover (Path.ofNames_ne_blank is) hdiscover
    rw [← Path.extend_ofNames, ← Path.extend_ofNames]
    by_cases hkind : e.kind = .directory
    · obtain ⟨_, hloc, _⟩ := isDirectory_iff.1 (hlisting.directories e he hkind)
      have htaken := makeOutputDirectories_taken
        (fun e he => hlisting.isEmpty_extend (List.mem_filter.1 he).1 _) hmade
        (List.mem_filter.2 ⟨he, by simpa using hkind⟩)
      exact ⟨(Path.check_ok_iff.1 (locate_ok_iff.1 hloc).1).2.2, (Path.check_ok_iff.1 htaken).2.2⟩
    · apply Decidable.byContradiction
      intro hlong
      have hfiles : e ∈ entries.filter (·.kind ≠ .directory) :=
        List.mem_filter.2 ⟨he, by simpa using hkind⟩
      have hlong' : ((Path.ofNames is).extend e.path).isTooLong = true ∨
          ((Path.ofNames os).extend e.path).isTooLong = true := by
        simpa only [Decidable.not_and_iff_or_not, Bool.not_eq_false] using hlong
      obtain ⟨fault, hfault⟩ := FileStore.processAll_fails (s := made) hfiles
        (process_tooLong rules hlong')
      rw [hdone] at hfault
      cases hfault

/-! ## Single files -/

/-- Directories along these names, each with one entry, and a file at the end. -/
def nest : List Name → Bytes → Node
  | [], content => .file content
  | n :: names, content => .directory [(n, nest names content)]

/-- A tree in which there is one file. -/
def nestTree (names : List Name) (content : Bytes) : FileSystem := ⟨nest names content, [], 0⟩

section
variable {names front rest : List Name} {content : Bytes} {loc : Location} {item : Item}

theorem look_nestTree_cons {n m : Name} : (nestTree (n :: names) content).look (m :: loc) =
    if m = n then (nestTree names content).look loc else none := by
  by_cases hm : m = n
  · subst hm
    simp [nestTree, nest, look, Node.at?, Node.child?]
  · have hne : (m == n) = false := beq_false_of_ne hm
    simp [nestTree, nest, look, Node.at?, Node.child?, List.lookup_cons, hm, hne]

theorem look_nestTree (names : List Name) (content : Bytes) :
    (nestTree names content).look names = some (.file content) := by
  induction names with
  | nil => rfl
  | cons n names ih => rw [look_nestTree_cons, if_pos rfl, ih]

theorem look_nestTree_front (front : List Name) (hrest : rest ≠ []) :
    (nestTree (front ++ rest) content).look front = some .directory := by
  induction front with
  | nil =>
    obtain ⟨n, rest, rfl⟩ := List.exists_cons_of_ne_nil hrest
    rfl
  | cons n front ih => rw [List.cons_append, look_nestTree_cons, if_pos rfl, ih]

theorem look_nestTree_some (hitem : (nestTree names content).look loc = some item) :
    ∃ rest, names = loc ++ rest ∧ item = if rest = [] then .file content else .directory := by
  induction names generalizing loc with
  | nil =>
    cases loc with
    | nil =>
      cases hitem
      exact ⟨[], rfl, rfl⟩
    | cons m loc => cases hitem
  | cons n names ih =>
    cases loc with
    | nil =>
      cases hitem
      exact ⟨n :: names, rfl, rfl⟩
    | cons m loc =>
      rw [look_nestTree_cons] at hitem
      split at hitem
      · next hm =>
        obtain ⟨rest, rfl, hrest⟩ := ih hitem
        exact ⟨rest, by rw [hm, List.cons_append], hrest⟩
      · cases hitem

theorem nestTree_noLinks (names : List Name) (content : Bytes) :
    (nestTree names content).NoLinks := by
  intro loc target hlink
  obtain ⟨rest, _, hitem⟩ := look_nestTree_some hlink
  split at hitem <;> cases hitem

theorem look_nestTree_vacant {n m : Name} (hne : n ≠ m) :
    (nestTree (n :: names) content).look [m] = none := by
  rw [look_nestTree_cons, if_neg hne.symm]

theorem nestTree_rootsUsable {n m : Name} (hne : n ≠ m) (hrest : rest ≠ []) :
    (nestTree (n :: rest) content).RootsUsable [n] [m] := by
  have hinput : (nestTree (n :: rest) content).look [n] = some .directory :=
    look_nestTree_front [n] hrest
  refine ⟨rfl, hinput, by simp [Apart, List.cons_prefix_cons, hne, hne.symm], ?_⟩
  intro front hfront hself content hfile
  cases front with
  | nil => cases hfile
  | cons k front =>
    obtain ⟨hk, hfront⟩ := List.cons_prefix_cons.1 hfront
    exact hself (by rw [hk, List.prefix_nil.1 hfront])

theorem nestTree_runFits (is way : List Name) (hroots : (nestTree (is ++ way) content).RootsFit is os)
    (his : is ≠ []) (hos : os ≠ []) (hin : (Path.ofNames (is ++ way)).isTooLong = false)
    (hout : (Path.ofNames (os ++ way)).isTooLong = false) :
    (nestTree (is ++ way) content).RunFits is os := by
  refine ⟨hroots, fun passed hpassed => ?_⟩
  obtain ⟨item, hitem⟩ := Option.ne_none_iff_exists'.1 hpassed
  obtain ⟨rest, hrest, _⟩ := look_nestTree_some hitem
  rw [nestTree, List.nil_append, List.append_assoc] at hrest
  obtain rfl := List.append_cancel_left hrest
  rw [← List.append_assoc] at hin hout
  exact ⟨Path.isTooLong_ofNames_append (List.append_ne_nil_of_left_ne_nil his _) hin,
    Path.isTooLong_ofNames_append (List.append_ne_nil_of_left_ne_nil hos _) hout⟩

end

/-! ## When a run succeeds -/

/-- A run succeeds only if its roots may be used, changes nothing if they may not, and never changes
anything away from the output but for directories that were missing above it; if no path is too long
it succeeds exactly if its roots may be used, and changes nothing if it fails. -/
theorem run_plain (rules : Rules) (h : fs.NoLinks) (his : is ≠ []) (hos : os ≠ [])
    (hrun : fs.run rules (.ofNames is) (.ofNames os) = ⟨after, events, result⟩) :
    (fs.RunFits is os → ((∃ report, result = .ok report) ↔ fs.RootsUsable is os) ∧
      ((∃ fault, result = .error fault) → after = fs)) ∧
    ((∃ report, result = .ok report) → fs.RootsUsable is os) ∧
    (¬ fs.RootsUsable is os → (∃ fault, result = .error fault) ∧ after = fs) ∧
    (∀ loc, ¬ fs.workingDirectory ++ os <+: loc → after.look loc = fs.look loc ∨
      (fs.look loc = none ∧ after.look loc = some .directory ∧ loc <+: fs.workingDirectory ++ os)) ∧
    ∀ way, after.look (fs.workingDirectory ++ is ++ way) =
      fs.look (fs.workingDirectory ++ is ++ way) := by
  have hchanges := run_changes h hos hrun
  have hsuccess : (∃ report, result = .ok report) → fs.RootsUsable is os := by
    rintro ⟨report, rfl⟩
    rcases hchanges with ⟨_, fault, hfault⟩ | ⟨husable, _⟩
    · cases hfault
    · exact husable
  have hrefused : ¬ fs.RootsUsable is os → (∃ fault, result = .error fault) ∧ after = fs := by
    intro husable
    rcases hchanges with ⟨hafter, hfault⟩ | ⟨husable', _⟩
    · exact ⟨hfault, hafter⟩
    · exact absurd husable' husable
  have houtside : ∀ loc, ¬ fs.workingDirectory ++ os <+: loc → after.look loc = fs.look loc ∨
      (fs.look loc = none ∧ after.look loc = some .directory ∧
        loc <+: fs.workingDirectory ++ os) := by
    intro loc haway
    rcases hchanges with ⟨rfl, _⟩ | ⟨_, prepared, entries, hprepares, hstage⟩
    · exact .inl rfl
    · rw [hstage.outside loc haway]
      exact hprepares.outside loc haway
  refine ⟨fun hfit => ⟨⟨hsuccess, fun husable => ?_⟩, ?_⟩, hsuccess, hrefused, houtside,
    fun way => ?_⟩
  · obtain ⟨after', events', report, hdone⟩ := run_isOk rules h his hos husable hfit
    rw [hdone] at hrun
    cases hrun
    exact ⟨report, rfl⟩
  · rintro ⟨fault, rfl⟩
    refine (hrefused fun husable => ?_).2
    obtain ⟨after', events', report, hdone⟩ := run_isOk rules h his hos husable hfit
    rw [hdone] at hrun
    cases hrun
  · rcases hchanges with ⟨rfl, _⟩ | ⟨husable, _⟩
    · rfl
    · obtain ⟨haway, habove⟩ := husable.away way
      rcases houtside _ haway with hsame | ⟨_, _, hprefix⟩
      · exact hsame
      · exact absurd hprefix habove

theorem run_nestTree : (nestTree [inName, noteName] [0x61]).run .none (.ofNames [inName])
      (.ofNames [outName]) =
    ⟨smallTree [(noteName, .file [0x61])] [],
      [.inputRoot smallInput, .outputRoot straightOutput,
        .fileCopy (straightOutput.extend [noteName])],
      .ok (.ofOutcomes smallInput straightOutput 0 [.copied])⟩ := rfl

/-- A run whose output is not there yet. -/
theorem nestTree_plain :
    (nestTree [inName, noteName] [0x61]).NoLinks ∧
    (nestTree [inName, noteName] [0x61]).RunFits [inName] [outName] ∧
    (nestTree [inName, noteName] [0x61]).RootsUsable [inName] [outName] ∧
    (smallTree [(noteName, .file [0x61])] []).look [inName, noteName] = some (.file [0x61]) := by
  have hlinks := nestTree_noLinks [inName, noteName] [0x61]
  have hfit : (nestTree [inName, noteName] [0x61]).RunFits [inName] [outName] :=
    nestTree_runFits [inName] [noteName] ⟨by decide, by decide⟩ (by simp) (by simp)
      (by decide) (by decide)
  obtain ⟨hfits, _, _, _, hinput⟩ := run_plain .none hlinks (by simp) (by simp) run_nestTree
  refine ⟨hlinks, hfit, (hfits hfit).1.1 ⟨_, rfl⟩, ?_⟩
  rw [← look_nestTree [inName, noteName] [0x61]]
  exact hinput [noteName]

/-! ## A long path -/

theorem utf8ByteSize_replicate (k : Nat) (c : Char) :
    (String.ofList (List.replicate k c)).utf8ByteSize = k * c.utf8Size := by
  induction k with
  | zero => rw [Nat.zero_mul]; rfl
  | succ k ih =>
    rw [List.replicate_succ, String.ofList_cons, String.utf8ByteSize_append, ih,
      String.utf8ByteSize_singleton, Nat.succ_mul, Nat.add_comm]

theorem isNameText_replicate {k : Nat} {c : Char} (hdot : c ≠ '.') (hslash : c ≠ '/')
    (hzero : c ≠ '\x00') (hk : 0 < k) (hsize : k * c.utf8Size ≤ nameLimit) :
    isNameText (String.ofList (List.replicate k c)) = true := by
  obtain ⟨j, rfl⟩ := Nat.exists_eq_succ_of_ne_zero (Nat.ne_of_gt hk)
  have hother : ∀ s : String, (∀ d rest, s.toList = d :: rest → d ≠ c) →
      String.ofList (List.replicate (j + 1) c) ≠ s := by
    rintro s hs rfl
    rw [String.toList_ofList] at hs
    exact hs c _ List.replicate_succ rfl
  have hempty := hother "" (by simp)
  have hone := hother "." (by rintro d rest ⟨⟩; exact hdot.symm)
  have htwo := hother ".." (by rintro d rest ⟨⟩; exact hdot.symm)
  simp [isNameText, hempty, hone, htwo, hslash.symm, hzero.symm, utf8ByteSize_replicate, hsize]

def longName : Name := ⟨String.ofList (List.replicate 200 'd'),
  isNameText_replicate (by decide) (by decide) (by decide) (by decide) (by decide)⟩
def lastName : Name := ⟨String.ofList (List.replicate 190 'f'),
  isNameText_replicate (by decide) (by decide) (by decide) (by decide) (by decide)⟩
def wideName : Name := ⟨String.ofList (List.replicate 100 'o'),
  isNameText_replicate (by decide) (by decide) (by decide) (by decide) (by decide)⟩

/-- The way to a file that can be read but not written below the output. -/
def longWay : List Name := List.replicate 19 longName ++ [lastName]

theorem bytesOf_longWay : Path.bytesOf (longWay.map .name) = 4010 := by
  have hlong : longName.text.utf8ByteSize = 200 := utf8ByteSize_replicate 200 'd'
  have hlast : lastName.text.utf8ByteSize = 190 := utf8ByteSize_replicate 190 'f'
  have hend : Path.bytesOf ([lastName].map .name) = 191 := by
    simp [Path.bytesOf, Segment.text, hlast]
  rw [longWay, List.map_append, List.map_replicate, Path.bytesOf_append, Path.bytesOf_replicate,
    Segment.text, hlong, hend]

/-- A path that is too long makes a run fail when it has made the output. -/
theorem longRun_fails :
    (nestTree (inName :: longWay) [0x61]).NoLinks ∧
    (nestTree (inName :: longWay) [0x61]).RootsUsable [inName] [wideName] ∧
    (nestTree (inName :: longWay) [0x61]).look [wideName] = none ∧
    ∃ after events fault, (nestTree (inName :: longWay) [0x61]).run .none (.ofNames [inName])
        (.ofNames [wideName]) = ⟨after, events, .error fault⟩ ∧
      after.look [wideName] = some .directory := by
  have hlinks := nestTree_noLinks (inName :: longWay) [0x61]
  have hwide : wideName.text.utf8ByteSize = 100 := utf8ByteSize_replicate 100 'o'
  have hnames : inName ≠ wideName := by
    intro hsame
    rw [← hsame] at hwide
    exact absurd hwide (by decide)
  have husable : (nestTree (inName :: longWay) [0x61]).RootsUsable [inName] [wideName] :=
    nestTree_rootsUsable hnames (by simp [longWay])
  have hfit : (nestTree (inName :: longWay) [0x61]).RootsFit [inName] [wideName] :=
    ⟨by decide, (Path.isTooLong_eq_false_iff (by simp)).2 (by
      simp [nestTree, Path.bytesOf, Segment.text, hwide, pathLimit])⟩
  obtain ⟨⟨after, events, result⟩, hrun⟩ : ∃ done, (nestTree (inName :: longWay) [0x61]).run .none
      (.ofNames [inName]) (.ofNames [wideName]) = done := ⟨_, rfl⟩
  have hmade := run_makes_output hlinks (by simp) (by simp) husable hfit hrun
  cases result with
  | error fault =>
    exact ⟨hlinks, husable, look_nestTree_vacant hnames, after, events, fault, hrun, hmade⟩
  | ok report =>
    have hthere : (nestTree (inName :: longWay) [0x61]).look ([inName] ++ longWay) ≠ none := by
      rw [List.singleton_append, look_nestTree]
      simp
    have hshort := (run_ok_fits hlinks (by simp) (by simp) rfl hrun (by simp [longWay]) hthere).2
    rw [Path.ofNames, Path.isTooLong_eq_false_iff (by simp), List.map_append, Path.bytesOf_append,
      bytesOf_longWay] at hshort
    have hone : Path.bytesOf ([wideName].map .name) = 101 := by
      simp [Path.bytesOf, Segment.text, hwide]
    rw [hone] at hshort
    exact absurd hshort (by decide)

end FileSystem

end Unseal
