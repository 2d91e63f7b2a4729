import Unseal.Run.Basic
import Unseal.Proofs.FileSystem.Writing
import Unseal.Proofs.Run.Files
import Unseal.Proofs.Run.Roots
import Unseal.Proofs.Walk
/-
  Mirrors — what a run leaves at the output

  After the output has been prepared the input is walked, and from then on things
  are only set at the places below the output that the paths of the walk lead to.
  What stands there between two steps is told by an invariant (`Stage`): nothing
  is gone, away from the output nothing has changed, and below the output stands
  only what the walk has met and what was there before. Every step keeps it, if
  nothing is set through a link that was left where the walk leads. When nothing
  else than what the walk has met was left, there is nothing else afterwards. This
  is so unless the path of the output leads up: making the directories on such a
  path can lead it to a directory that was there, of which nothing has been cleared.

  What is proved:
    1. `Stage.set`, `makeOutputDirectories_stage`, `processAll_stage` — every step
       of a run keeps the invariant, and so does the run.
    2. `run_mirrors_iff` — the output mirrors the input exactly if the prepared
       output holds nothing else than what the walk has met.
    3. `run_leaves_rest` — there is a run after which it does not.
-/

namespace Unseal

/-! ## Mirrors -/

/-- What stands at a place is what an entry of this kind is to become. -/
def Item.Suits : Item → EntryKind → Prop
  | .directory, kind => kind = .directory
  | .file _, kind => kind ≠ .directory
  | .link _, _ => False

namespace FileSystem

/-- Below a place stands only what the entries say. -/
def OnlyEntries (fs : FileSystem) (root : Location) (entries : List Entry) : Prop :=
  ∀ way item, way ≠ [] → fs.look (root ++ way) = some item →
    ∃ e ∈ entries, e.path = way ∧ item.Suits e.kind

/-- No link stands below a place where an entry leads. -/
def Unlinked (fs : FileSystem) (root : Location) (entries : List Entry) : Prop :=
  ∀ e ∈ entries, ∀ target, fs.look (root ++ e.path) ≠ some (.link target)

/-- The entries lead to nothing that is at a place or below it. -/
def EntriesApart (fs : FileSystem) (input : Path) (root : Location) (entries : List Entry) : Prop :=
  ∀ e ∈ entries, ∀ loc, fs.locate (input.extend e.path) = .ok loc → ¬ root <+: loc

/-- Below a place stands what was met below the input, with the bytes that are to be written, and
nothing else; `before` is what was there when the input was walked. -/
structure Mirrors (rules : Rules) (input : Path) (root : Location) (entries : List Entry)
    (before after : FileSystem) : Prop where
  here : after.look root = some .directory
  directories : ∀ e ∈ entries, e.kind = .directory →
    before.isDirectory (input.extend e.path) = true ∧ after.look (root ++ e.path) = some .directory
  files : ∀ e ∈ entries, e.kind ≠ .directory → ∃ above n read written, e.path = above ++ [n] ∧
    before.readFile (input.extend e.path) = .ok read ∧
    after.readFile (input.extend e.path) = .ok read ∧
    after.look (root ++ e.path) = some (.file written) ∧ Delivers rules n read written
  nothingElse : ∀ way item, way ≠ [] → after.look (root ++ way) = some item →
    ∃ e ∈ entries, e.path = way

/-- What holds of a file system while the output is filled. -/
structure Stage (root : Location) (entries : List Entry) (before now : FileSystem) : Prop where
  grows : Grows before now
  outside : ∀ loc, ¬ root <+: loc → now.look loc = before.look loc
  within : ∀ way item, way ≠ [] → now.look (root ++ way) = some item →
    before.look (root ++ way) = some item ∨ ∃ e ∈ entries, e.path = way ∧ item.Suits e.kind

variable {fs fs' before now now' : FileSystem} {rules : Rules} {input output : Path}
  {root : Location} {entries : List Entry} {events : List Event}

/-! ## Steps -/

theorem makeOutputDirectories_cons {e : Entry} {rest : List Entry}
    (h : fs.makeOutputDirectories output (e :: rest) = ⟨fs', events, .ok ()⟩) :
    ∃ mid more, fs.makeDirectories (output.extend e.path) = (mid, .ok ()) ∧
      mid.makeOutputDirectories output rest = ⟨fs', more, .ok ()⟩ := by
  rw [makeOutputDirectories, Progress.andThen_ok_iff] at h
  obtain ⟨mid, told, _, more, hmade, hrest, _⟩ := h
  obtain ⟨made, hmake⟩ : ∃ made, fs.makeDirectories (output.extend e.path) = made := ⟨_, rfl⟩
  rw [hmake] at hmade
  obtain ⟨made, done⟩ := made
  obtain ⟨rfl, _, hdone⟩ := (Progress.mk.injEq ..).mp hmade
  rw [mapError_ok_iff.1 hdone] at hmake
  exact ⟨made, more, hmake, hrest⟩

theorem makeOutputDirectories_grows {dirs : List Entry}
    (h : fs.makeOutputDirectories output dirs = ⟨fs', events, .ok ()⟩) : Grows fs fs' := by
  induction dirs generalizing fs events with
  | nil =>
    cases h
    exact .refl fs'
  | cons e rest ih =>
    obtain ⟨mid, more, hmake, hrest⟩ := makeOutputDirectories_cons h
    exact (makeDirectories_adds hmake).grows.trans (ih hrest)

theorem processAll_grows {files : List Entry} {outcomes : List Outcome}
    (h : store.processAll rules input output fs files = ⟨fs', events, .ok outcomes⟩)
    (hwritten : ∀ fault target, .writeFailed fault target ∉ events) : Grows fs fs' := by
  induction files generalizing fs events outcomes with
  | nil =>
    cases h
    exact .refl fs'
  | cons e rest ih =>
    obtain ⟨mid, bytes, more, outcomes', _, hwrite, hrest, hmore⟩ :=
      FileStore.processAll_cons h hwritten
    exact (writeOutput_grows hwrite).trans (ih hrest hmore)

theorem OnlyEntries.suits (honly : fs.OnlyEntries root entries)
    (hlisting : Listing before input entries) {e : Entry} (he : e ∈ entries) {item : Item}
    (hitem : fs.look (root ++ e.path) = some item) : item.Suits e.kind := by
  obtain ⟨above, n, hpath, _⟩ := hlisting.named e he
  obtain ⟨e', he', hpath', hsuits⟩ := honly e.path item (by simp [hpath]) hitem
  obtain rfl := hlisting.eq_of_path he he' hpath'.symm
  exact hsuits

theorem OnlyEntries.unlinked (honly : fs.OnlyEntries root entries)
    (hlisting : Listing before input entries) : fs.Unlinked root entries := fun _ he _ hlink =>
  honly.suits hlisting he hlink

namespace Stage

theorem refl (root : Location) (entries : List Entry) (fs : FileSystem) :
    Stage root entries fs fs :=
  ⟨.refl fs, fun _ _ => rfl, fun _ _ _ hitem => .inl hitem⟩

theorem set (hstage : Stage root entries before now) (hgrows : Grows now now') {e : Entry}
    (he : e ∈ entries) {item : Item} (hsets : Sets now now' (root ++ e.path) item)
    (hsuits : item.Suits e.kind) : Stage root entries before now' := by
  refine ⟨hstage.grows.trans hgrows, fun loc hloc => ?_, fun way item' hway hlook => ?_⟩
  · have hne : loc ≠ root ++ e.path := by
      intro h
      subst h
      exact hloc (List.prefix_append root e.path)
    rw [hsets.other loc hne, hstage.outside loc hloc]
  · by_cases hpath : e.path = way
    · subst hpath
      obtain rfl := Option.some.inj (hsets.self.symm.trans hlook)
      exact .inr ⟨e, he, rfl, hsuits⟩
    · have hne : root ++ way ≠ root ++ e.path := fun heq =>
        hpath (List.append_cancel_left heq).symm
      rw [hsets.other _ hne] at hlook
      exact hstage.within way item' hway hlook

theorem onlyEntries (hstage : Stage root entries before now)
    (honly : before.OnlyEntries root entries) : now.OnlyEntries root entries := by
  intro way item hway hitem
  rcases hstage.within way item hway hitem with hbefore | hmet
  · exact honly way item hway hbefore
  · exact hmet

theorem before_or_suits (hstage : Stage root entries before now)
    (hlisting : Listing fs input entries) {e : Entry} (he : e ∈ entries) {item : Item}
    (hitem : now.look (root ++ e.path) = some item) :
    before.look (root ++ e.path) = some item ∨ item.Suits e.kind := by
  obtain ⟨above, n, hpath, _⟩ := hlisting.named e he
  rcases hstage.within e.path item (by simp [hpath]) hitem with
    hbefore | ⟨e', he', hpath', hsuits⟩
  · exact .inl hbefore
  · obtain rfl := hlisting.eq_of_path he he' hpath'.symm
    exact .inr hsuits

theorem unlinked (hstage : Stage root entries before now) (hlisting : Listing fs input entries)
    (hunlinked : before.Unlinked root entries) : now.Unlinked root entries := by
  intro e he target hlink
  rcases hstage.before_or_suits hlisting he hlink with hbefore | hsuits
  · exact hunlinked e he target hbefore
  · cases hsuits

theorem vacant_or_file (hstage : Stage root entries before now)
    (hlisting : Listing fs input entries) (hunlinked : before.Unlinked root entries) {e : Entry}
    (he : e ∈ entries) (hkind : e.kind ≠ .directory)
    (hfree : before.look (root ++ e.path) ≠ some .directory) :
    now.look (root ++ e.path) = none ∨ ∃ old, now.look (root ++ e.path) = some (.file old) := by
  cases hitem : now.look (root ++ e.path) with
  | none => exact .inl rfl
  | some item =>
    cases item with
    | file old => exact .inr ⟨old, rfl⟩
    | link target => exact absurd hitem (hstage.unlinked hlisting hunlinked e he target)
    | directory =>
      rcases hstage.before_or_suits hlisting he hitem with hbefore | hsuits
      · exact absurd hbefore hfree
      · exact absurd hsuits hkind

theorem readFile_iff (hstage : Stage root entries before now) {p : Path} {loc : Location}
    {bytes : Bytes} (hloc : before.PathTo .thing p (.found loc))
    (haway : ∀ loc, before.locate p = .ok loc → ¬ root <+: loc) :
    now.readFile p = .ok bytes ↔ before.readFile p = .ok bytes := by
  have hsame : p.check = .ok () → now.look loc = before.look loc := fun hcheck =>
    hstage.outside loc (haway loc (locate_ok_iff.2 ⟨hcheck, hloc⟩))
  have hnow := hstage.grows.pathTo hloc
  simp only [readFile_ok_iff, locate_ok_iff]
  refine ⟨?_, ?_⟩
  · intro h
    obtain ⟨found, ⟨hcheck, hfound⟩, hfile⟩ := h
    cases hfound.unique hnow
    exact ⟨loc, ⟨hcheck, hloc⟩, hsame hcheck ▸ hfile⟩
  · intro h
    obtain ⟨found, ⟨hcheck, hfound⟩, hfile⟩ := h
    cases hfound.unique hloc
    exact ⟨loc, ⟨hcheck, hnow⟩, (hsame hcheck).trans hfile⟩

end Stage

/-! ## Runs of steps -/

section
variable (houtput : output.segments ≠ [.blank]) (hroot : before.PathTo .thing output (.found root))
  (hlisting : Listing before input entries)
include houtput hroot hlisting

section
variable (hunlinked : before.Unlinked root entries)
include hunlinked

theorem makeDirectories_stage (hstage : Stage root entries before now) {e : Entry}
    (he : e ∈ entries) (hkind : e.kind = .directory)
    (habove : now.look (root ++ e.path.dropLast) = some .directory)
    (h : now.makeDirectories (output.extend e.path) = (now', .ok ())) :
    Stage root entries before now' ∧ now'.look (root ++ e.path) = some .directory := by
  obtain ⟨above, n, hpath, _⟩ := hlisting.named e he
  have hroot' := hstage.grows.pathTo hroot
  rw [hpath, List.dropLast_concat] at habove
  cases hitem : now.look (root ++ e.path) with
  | none =>
    rw [hpath] at h hitem
    have hsets := makeDirectories_vacant houtput hroot' h habove hitem
    rw [← hpath] at hsets
    exact ⟨hstage.set (makeDirectories_adds h).grows he hsets hkind, hsets.self⟩
  | some item =>
    have hplace := hitem
    rw [hpath] at h hplace
    cases item with
    | file content => exact absurd hplace (makeDirectories_not_file houtput hroot' h content)
    | link target => exact absurd hitem (hstage.unlinked hlisting hunlinked e he target)
    | directory =>
      obtain rfl := makeDirectories_present houtput hroot' h hplace
      exact ⟨hstage, hitem⟩

/-- The directories that were met are made, each after the one around it. -/
theorem makeOutputDirectories_stage {dirs : List Entry} {met : List (List Name)}
    (hstage : Stage root entries before now) (hdirs : ∀ e ∈ dirs, e ∈ entries ∧ e.kind = .directory)
    (hparents : ParentsFirst met dirs)
    (hmet : ∀ way ∈ met, now.look (root ++ way) = some .directory)
    (h : now.makeOutputDirectories output dirs = ⟨now', events, .ok ()⟩) :
    Stage root entries before now' ∧
      ∀ e ∈ dirs, now'.look (root ++ e.path) = some .directory := by
  induction dirs generalizing now met events with
  | nil =>
    cases h
    exact ⟨hstage, by simp⟩
  | cons e rest ih =>
    obtain ⟨mid, more, hmake, hrest⟩ := makeOutputDirectories_cons h
    obtain ⟨he, hkind⟩ := hdirs e List.mem_cons_self
    obtain ⟨hmid, hmade⟩ := makeDirectories_stage houtput hroot hlisting hunlinked hstage he hkind
      (hmet _ hparents.1) hmake
    have hparents' := hparents.2
    rw [if_pos hkind] at hparents'
    have hmet' : ∀ way ∈ e.path :: met, mid.look (root ++ way) = some .directory := by
      intro way hway
      rcases List.mem_cons.1 hway with rfl | hway
      · exact hmade
      · exact (makeDirectories_adds hmake).grows.directory (hmet way hway)
    obtain ⟨hstage', hothers⟩ := ih hmid (fun e he => hdirs e (List.mem_cons_of_mem _ he))
      hparents' hmet' hrest
    refine ⟨hstage', fun e' he' => ?_⟩
    rcases List.mem_cons.1 he' with rfl | he'
    · exact (makeOutputDirectories_grows hrest).directory hmade
    · exact hothers e' he'

theorem writeOutput_stage (hstage : Stage root entries before now) {e : Entry} {bytes : Bytes}
    (he : e ∈ entries) (hkind : e.kind ≠ .directory)
    (habove : now.look (root ++ e.path.dropLast) = some .directory)
    (h : now.writeOutput (output.extend e.path) bytes = (now', .ok ())) :
    Stage root entries before now' ∧ Sets now now' (root ++ e.path) (.file bytes) := by
  obtain ⟨above, n, hpath, _⟩ := hlisting.named e he
  have hroot' := hstage.grows.pathTo hroot
  have hgrows := writeOutput_grows h
  have hfree : before.look (root ++ e.path) ≠ some .directory := by
    intro hdirectory
    have hnow := hstage.grows.directory hdirectory
    rw [hpath] at h hnow
    exact writeOutput_not_directory houtput hroot' h hnow
  have hold := hstage.vacant_or_file hlisting hunlinked he hkind hfree
  rw [hpath] at h hold
  rw [hpath, List.dropLast_concat] at habove
  have hsets := writeOutput_below houtput hroot' h habove hold
  rw [← hpath] at hsets
  exact ⟨hstage.set hgrows he hsets hkind, hsets⟩

/-- The files that were met are read and written, each at a place of its own. -/
theorem processAll_stage {files : List Entry} {outcomes : List Outcome}
    (hapart : before.EntriesApart input root entries) (hstage : Stage root entries before now)
    (hfiles : ∀ e ∈ files, e ∈ entries ∧ e.kind ≠ .directory)
    (hdistinct : files.Pairwise fun a b => a.path ≠ b.path)
    (habove : ∀ e ∈ files, now.look (root ++ e.path.dropLast) = some .directory)
    (h : store.processAll rules input output now files = ⟨now', events, .ok outcomes⟩)
    (hwritten : ∀ fault target, .writeFailed fault target ∉ events) :
    Stage root entries before now' ∧
      (∀ way, (∀ e ∈ files, e.path ≠ way) → now'.look (root ++ way) = now.look (root ++ way)) ∧
      ∀ e ∈ files, ∃ bytes, before.readFile (input.extend e.path) = .ok bytes ∧
        now'.look (root ++ e.path) = some (.file (delivered rules e.kind bytes)) := by
  induction files generalizing now events outcomes with
  | nil =>
    cases h
    exact ⟨hstage, fun _ _ => rfl, by simp⟩
  | cons e rest ih =>
    obtain ⟨mid, bytes, more, outcomes', hread, hwrite, hrest, hmore⟩ :=
      FileStore.processAll_cons h hwritten
    obtain ⟨he, hkind⟩ := hfiles e List.mem_cons_self
    obtain ⟨hothers, hdistinct⟩ := List.pairwise_cons.1 hdistinct
    obtain ⟨hmid, hsets⟩ := writeOutput_stage houtput hroot hlisting hunlinked hstage he hkind
      (habove e List.mem_cons_self) hwrite
    have habove' : ∀ e ∈ rest, mid.look (root ++ e.path.dropLast) = some .directory := fun e he =>
      (writeOutput_grows hwrite).directory (habove e (List.mem_cons_of_mem _ he))
    obtain ⟨hstage', hframe, hdone⟩ := ih hmid (fun e he => hfiles e (List.mem_cons_of_mem _ he))
      hdistinct habove' hrest hmore
    refine ⟨hstage', fun way hway => ?_, fun e' he' => ?_⟩
    · rw [hframe way fun e he => hway e (List.mem_cons_of_mem _ he)]
      apply hsets.other
      intro heq
      apply hway e List.mem_cons_self
      exact (List.append_cancel_left heq).symm
    · rcases List.mem_cons.1 he' with rfl | he'
      · obtain ⟨loc, hloc⟩ := hlisting.located e' he
        -- No later file is written where this one was, since their paths differ.
        refine ⟨bytes, (hstage.readFile_iff hloc (hapart e' he)).1 hread, ?_⟩
        rw [hframe e'.path fun e he => (hothers e he).symm]
        exact hsets.self
      · exact hdone e' he'

theorem stage_of_made {made : FileSystem} (hdir : before.look root = some .directory)
    (hmade : before.makeOutputDirectories output (entries.filter (·.kind = .directory)) =
      ⟨made, events, .ok ()⟩) :
    Stage root entries before made ∧
      (∀ e ∈ entries, e.kind = .directory → made.look (root ++ e.path) = some .directory) ∧
      ∀ e ∈ entries, made.look (root ++ e.path.dropLast) = some .directory := by
  have hmet : ∀ way ∈ [[]], before.look (root ++ way) = some .directory := by
    simpa using hdir
  obtain ⟨hstage, hdirectories⟩ := makeOutputDirectories_stage houtput hroot hlisting hunlinked
    (.refl root entries before) (fun e he => by simpa using he)
    hlisting.parentsFirst.directories hmet hmade
  have hdirectory : ∀ e ∈ entries, e.kind = .directory →
      made.look (root ++ e.path) = some .directory := fun e he hkind =>
    hdirectories e (List.mem_filter.2 ⟨he, by simpa using hkind⟩)
  refine ⟨hstage, hdirectory, fun e he => ?_⟩
  rcases hlisting.parentsFirst.mem he with hnil | ⟨d, hd, hkind, hpath⟩
  · rw [List.mem_singleton.1 hnil, List.append_nil]
    exact hstage.grows.directory hdir
  · rw [← hpath]
    exact hdirectory d hd hkind

end

theorem mirrors_of_onlyEntries {made : FileSystem} {told : List Event} {outcomes : List Outcome}
    (hdir : before.look root = some .directory) (hapart : before.EntriesApart input root entries)
    (honly : before.OnlyEntries root entries)
    (hmade : before.makeOutputDirectories output (entries.filter (·.kind = .directory)) =
      ⟨made, told, .ok ()⟩)
    (hdone : store.processAll rules input output made (entries.filter (·.kind ≠ .directory)) =
      ⟨now, events, .ok outcomes⟩)
    (hwritten : ∀ fault target, .writeFailed fault target ∉ events) :
    Mirrors rules input root entries before now := by
  have hunlinked := honly.unlinked hlisting
  obtain ⟨hstage, hdirectory, habove⟩ := stage_of_made houtput hroot hlisting hunlinked hdir hmade
  -- Every directory is there that a file is to be written in.
  obtain ⟨hstage', hframe, hfiles⟩ := processAll_stage houtput hroot hlisting hunlinked hapart hstage
    (fun e he => by simpa using he) (hlisting.distinct.filter _)
    (fun e he => habove e (List.mem_filter.1 he).1) hdone hwritten
  refine ⟨hstage'.grows.directory hdir, fun e he hkind => ⟨hlisting.directories e he hkind, ?_⟩,
    fun e he hkind => ?_, fun way item hway hlook => ?_⟩
  · exact (processAll_grows hdone hwritten).directory (hdirectory e he hkind)
  · obtain ⟨above, n, hpath, hname⟩ := hlisting.named e he
    obtain ⟨loc, hloc⟩ := hlisting.located e he
    obtain ⟨read, hread, hwrote⟩ := hfiles e (List.mem_filter.2 ⟨he, by simpa using hkind⟩)
    rw [hname.resolve_left hkind] at hwrote
    exact ⟨above, n, read, _, hpath, hread, (hstage'.readFile_iff hloc (hapart e he)).2 hread,
      hwrote, delivers_delivered rules n read⟩
  · obtain ⟨e, he, hpath, _⟩ := hstage'.onlyEntries honly way item hway hlook
    exact ⟨e, he, hpath⟩

end

theorem Mirrors.onlyEntries (h : Mirrors rules input root entries before now)
    (hgrows : Grows before now) : before.OnlyEntries root entries := by
  intro way item hway hitem
  obtain ⟨item', hitem', hbecomes⟩ := hgrows.kept _ item hitem
  obtain ⟨e, he, rfl⟩ := h.nothingElse way item' hway hitem'
  refine ⟨e, he, rfl, ?_⟩
  by_cases hkind : e.kind = .directory
  · have hdirectory := (h.directories e he hkind).2
    rw [hitem'] at hdirectory
    cases hdirectory
    cases item with
    | directory => exact hkind
    | file content => cases hbecomes
    | link target => cases hbecomes
  · obtain ⟨_, _, _, written, _, _, _, hfile, _⟩ := h.files e he hkind
    rw [hitem'] at hfile
    cases hfile
    cases item with
    | directory => cases hbecomes
    | file content => exact hkind
    | link target => cases hbecomes

/-! ## Whole runs -/

theorem run_parts {report : Report} (h : fs.run rules input output = ⟨fs', events, .ok report⟩) :
    fs.allowRoots input output = .ok () ∧ ∃ prepared entries made told more outcomes,
      fs.prepareOutput output = (prepared, .ok ()) ∧ prepared.discover input = .ok entries ∧
      prepared.makeOutputDirectories output (entries.filter (·.kind = .directory)) =
        ⟨made, told, .ok ()⟩ ∧
      store.processAll rules input output made (entries.filter (·.kind ≠ .directory)) =
        ⟨fs', more, .ok outcomes⟩ ∧
      (∀ event ∈ more, event ∈ events) ∧
      report = .ofOutcomes input output (entries.filter (·.kind = .directory)).length outcomes := by
  unfold run at h
  split at h
  · cases h
  · next hallowed =>
    split at h
    · cases h
    · next prepared hprepared =>
      simp only [Progress.andThen_ok_iff, copyEntries, Progress.mapBoth_ok_iff] at h
      obtain ⟨_, _, entries, _, hwalked, ⟨made, told, _, more, hmade, ⟨outcomes, hdone, hreport⟩,
        rfl⟩, rfl⟩ := h
      obtain ⟨rfl, _, hdiscover⟩ := (Progress.mk.injEq ..).mp hwalked
      refine ⟨hallowed, prepared, entries, made, told, more, outcomes, hprepared,
        mapError_ok_iff.1 hdiscover, hmade, hdone, fun event hevent => ?_, hreport.symm⟩
      exact List.mem_append_right _ (List.mem_append_right told hevent)

theorem run_ok {report : Report} (h : fs.run rules input output = ⟨fs', events, .ok report⟩) :
    fs.allowRoots input output = .ok () ∧ ∃ prepared entries made told more outcomes,
      fs.prepareOutput output = (prepared, .ok ()) ∧ prepared.discover input = .ok entries ∧
      prepared.makeOutputDirectories output (entries.filter (·.kind = .directory)) =
        ⟨made, told, .ok ()⟩ ∧
      store.processAll rules input output made (entries.filter (·.kind ≠ .directory)) =
        ⟨fs', more, .ok outcomes⟩ ∧
      ∀ event ∈ more, event ∈ events := by
  obtain ⟨hallowed, prepared, entries, made, told, more, outcomes, hprepared, hdiscover, hmade,
    hdone, hmore, _⟩ := run_parts h
  exact ⟨hallowed, prepared, entries, made, told, more, outcomes, hprepared, hdiscover, hmade,
    hdone, hmore⟩

/-- A run without a failed writing makes the output a mirror of the input exactly if nothing else
is in the output once it has been prepared, and so always if the path of the output never leads
up. -/
theorem run_mirrors_iff {report : Report}
    (h : fs.run rules input output = ⟨fs', events, .ok report⟩)
    (hwritten : ∀ fault target, .writeFailed fault target ∉ events) :
    ∃ prepared entries root, fs.prepareOutput output = (prepared, .ok ()) ∧
      prepared.discover input = .ok entries ∧
      prepared.locate output = .ok root ∧ fs'.locate output = .ok root ∧
      (∀ loc content, prepared.look loc = some (.file content) →
        fs.look loc = some (.file content)) ∧
      (prepared.EntriesApart input root entries →
        (Mirrors rules input root entries prepared fs' ↔ prepared.OnlyEntries root entries)) ∧
      (.up ∉ output.segments → ∀ way, way ≠ [] → prepared.look (root ++ way) = none) := by
  obtain ⟨hallowed, prepared, entries, made, told, more, outcomes, hprepared, hdiscover, hmade,
    hdone, hmore⟩ := run_ok h
  obtain ⟨hinput, houtput, hnonempty⟩ := allowRoots_ok hallowed
  obtain ⟨hdirectory, hfiles⟩ := prepareOutput_ok hprepared hnonempty
  obtain ⟨root, hlocate, hdir⟩ := isDirectory_iff.1 hdirectory
  have hmore' : ∀ fault target, .writeFailed fault target ∉ more := fun fault target hmem =>
    hwritten fault target (hmore _ hmem)
  have hgrows := (makeOutputDirectories_grows hmade).trans (processAll_grows hdone hmore')
  refine ⟨prepared, entries, root, hprepared, hdiscover, hlocate, hgrows.locate hlocate, hfiles,
    fun hapart => ⟨fun hmirrors => hmirrors.onlyEntries hgrows, fun honly => ?_⟩, fun hup => ?_⟩
  · exact mirrors_of_onlyEntries houtput (locate_ok_iff.1 hlocate).2
      (listing_of_discover hinput hdiscover) hdir hapart honly hmade hdone hmore'
  · obtain ⟨place, hplace, _, hempty⟩ := prepareOutput_empty hprepared hnonempty hup
    obtain rfl : root = place := Except.ok.inj (hlocate.symm.trans hplace)
    exact hempty

def inName : Name := ⟨"in", by decide⟩
def outName : Name := ⟨"out", by decide⟩
def noteName : Name := ⟨"note.txt", by decide⟩
def restName : Name := ⟨"rest.txt", by decide⟩
def missingName : Name := ⟨"missing", by decide⟩

/-- A tree with one file in the input, this in the output, and this beside them. -/
def smallTree (filled beside : List (Name × Node)) : FileSystem :=
  ⟨.directory ((inName, .directory [(noteName, .file [0x61])]) ::
    (outName, .directory filled) :: beside), [], 0⟩

def smallInput : Path := ⟨[.name inName]⟩
def smallEntries : List Entry := [⟨[noteName], .plainFile⟩]

theorem smallEntries_apart (hnote : fs.locate (input.extend [noteName]) = .ok [inName, noteName])
    (hout : ¬ root <+: [inName, noteName]) : fs.EntriesApart input root smallEntries := by
  intro e he loc hloc
  obtain rfl := List.mem_singleton.1 he
  obtain rfl : [inName, noteName] = loc := Except.ok.inj (hnote.symm.trans hloc)
  exact hout

/-- The path to the output on which nothing leads up. -/
def straightOutput : Path := ⟨[.name outName]⟩

theorem run_straightOutput :
    (smallTree [(restName, .file [0x62])] []).run .none smallInput straightOutput =
      ⟨smallTree [(noteName, .file [0x61])] [],
        [.inputRoot smallInput, .outputRoot straightOutput,
          .fileCopy (straightOutput.extend [noteName])],
        .ok (.ofOutcomes smallInput straightOutput 0 [.copied])⟩ := rfl

theorem straightOutput_mirrors :
    (smallTree [(restName, .file [0x62])] []).prepareOutput straightOutput =
      (smallTree [] [], .ok ()) ∧
    Mirrors .none smallInput [outName] smallEntries (smallTree [] [])
      (smallTree [(noteName, .file [0x61])] []) := by
  obtain ⟨prepared, entries, root, hprepared, hdiscover, hroot, _, _, hmirrors, hempty⟩ :=
    run_mirrors_iff run_straightOutput (by simp)
  obtain rfl : smallTree [] [] = prepared := congrArg Prod.fst hprepared
  obtain rfl : smallEntries = entries := Except.ok.inj hdiscover
  obtain rfl : [outName] = root := Except.ok.inj hroot
  refine ⟨rfl, (hmirrors (smallEntries_apart rfl (by decide))).2 fun way item hway hlook => ?_⟩
  rw [hempty (by decide) way hway] at hlook
  cases hlook

/-- The path to the output through a directory that is not there. -/
def detourOutput : Path := ⟨[.name missingName, .up, .name outName]⟩

/-- A run by that path leaves in the output what was there before. -/
theorem run_leaves_rest :
    (smallTree [(restName, .file [0x62])] []).run .none smallInput detourOutput =
      ⟨smallTree [(restName, .file [0x62]), (noteName, .file [0x61])]
          [(missingName, .directory [])],
        [.inputRoot smallInput, .outputRoot detourOutput,
          .fileCopy (detourOutput.extend [noteName])],
        .ok (.ofOutcomes smallInput detourOutput 0 [.copied])⟩ ∧
    (smallTree [(restName, .file [0x62])] []).prepareOutput detourOutput =
      (smallTree [(restName, .file [0x62])] [(missingName, .directory [])], .ok ()) ∧
    (smallTree [(restName, .file [0x62])] [(missingName, .directory [])]).discover smallInput =
      .ok smallEntries ∧
    (smallTree [(restName, .file [0x62])] [(missingName, .directory [])]).locate detourOutput =
      .ok [outName] ∧
    (smallTree [(restName, .file [0x62])] [(missingName, .directory [])]).EntriesApart smallInput
      [outName] smallEntries ∧
    ¬ Mirrors .none smallInput [outName] smallEntries
        (smallTree [(restName, .file [0x62])] [(missingName, .directory [])])
        (smallTree [(restName, .file [0x62]), (noteName, .file [0x61])]
          [(missingName, .directory [])]) := by
  refine ⟨rfl, rfl, rfl, rfl, smallEntries_apart rfl (by decide), fun hmirrors => ?_⟩
  obtain ⟨e, he, hpath⟩ := hmirrors.nothingElse [restName] (.file [0x62]) (by simp) rfl
  obtain rfl := List.mem_singleton.1 he
  exact absurd hpath (by decide)

end FileSystem

end Unseal
