import Unseal.Run.Roots
import Unseal.Proofs.FileSystem.Named
/-
  Roots of a run — what is left when the output has been prepared

  Preparing the output takes away what is at it and makes a directory there.
  Taking away only removes and making only adds directories, so every file that
  stands afterwards stood before. The output itself is a new directory with
  nothing in it, unless its path leads up on its way: then making the directories
  on the way can bring to light what was out of reach when the output was cleared.

  What is proved:
    1. `LeadsShort.canonical` — a path that leads past short places only has a path
       from the root.
    2. `allowRoots_ok` — roots that are allowed are paths to which names can be put.
    3. `prepareOutput_ok` — after preparing there is a directory at the output, and
       no file that was not there before.
    4. `prepareOutput_empty` — a path that never leads up leads to an empty directory
       then.
-/

namespace Unseal

namespace FileSystem

variable {fs fs' cleared prepared : FileSystem} {p input output : Path} {loc : Location}

/-! ## Allowed roots -/

theorem locate_blank {place : Location} (hp : p.segments = [.blank])
    (h : fs.locate p = .ok place) : place = [] := by
  obtain ⟨_, k, _, hleads⟩ := locate_ok_iff.1 h
  have habsolute : p.isAbsolute = true := by rw [Path.isAbsolute, hp]; rfl
  rw [leads_iff (depth_of_isAbsolute habsolute), start_of_isAbsolute habsolute, hp] at hleads
  cases hleads with
  | idle _ _ hleads =>
    cases hleads
    rfl

theorem canonical_ok {segments : List Segment} (h : fs.canonical p = .ok segments) :
    ∃ place, fs.locate p = .ok place ∧ fs.depth p = 0 ∧ segments = place.map .name := by
  rw [canonical, bind_ok_iff] at h
  obtain ⟨place, hplace, h⟩ := h
  split at h
  · cases h
  · next hdepth =>
    split at h
    · exact ⟨place, hplace, Decidable.not_not.1 hdepth, (pure_ok_iff.1 h).symm⟩
    · cases h

theorem canonical_isOk {place : Location} {k : Nat} (hplace : fs.locate p = .ok place)
    (hpresent : fs.depth p = 0) (hk : k ≤ linkLimit)
    (hleads : LeadsTo fs.lookShort .thing k (fs.start p) p.segments (.found place)) :
    fs.canonical p = .ok (place.map .name) := by
  rw [canonical, hplace]
  simp only [bind, Except.bind, hpresent, follow_ok_iff.2 ⟨k, hk, hleads⟩]
  rfl

theorem lookShort_above {front : Location}
    (hfit : (Path.rooted (loc.map .name)).isTooLong = false) (hfront : front <+: loc) :
    fs.lookShort front = fs.look front := by
  obtain ⟨rest, rfl⟩ := hfront
  rw [List.map_append] at hfit
  rw [lookShort, Path.isTooLong_rooted_append hfit]
  rfl

theorem leadsTo_short {root : Location} {way : List Name} {item : Item}
    (hfit : (Path.rooted ((root ++ way).map .name)).isTooLong = false)
    (hitem : fs.look (root ++ way) = some item) (hlink : ∀ target, item ≠ .link target) :
    LeadsTo fs.lookShort .thing 0 root (way.map .name) (.found (root ++ way)) := by
  refine leadsTo_along .thing (fun front hfront hne => ?_) ?_ hlink
  · have hprefix := (List.prefix_append_right_inj root).2 hfront
    rw [lookShort_above hfit hprefix]
    obtain ⟨rest, rfl⟩ := hfront
    obtain ⟨n, rest, rfl⟩ := List.exists_cons_of_ne_nil (by simpa using hne : rest ≠ [])
    rw [← List.append_assoc] at hitem
    exact look_above hitem
  · rw [lookShort_above hfit (List.prefix_refl _), hitem]

/-- What stands at a place, if the path from the root to it is not too long with a slash behind it. -/
def lookRoomy (fs : FileSystem) (loc : Location) : Option Item :=
  if (Path.rooted (loc.map .name ++ [.blank])).isTooLong then none else fs.look loc

/-- The path does not begin in what is removed, and leads to the place past places only to which the
path from the root is not too long with a slash behind it. -/
structure LeadsShort (fs : FileSystem) (p : Path) (place : Location) : Prop where
  present : fs.depth p = 0
  leads : ∃ k, k ≤ linkLimit ∧
    LeadsTo fs.lookRoomy .thing k (fs.start p) p.segments (.found place)

theorem keeps_lookShort (fs : FileSystem) : Keeps fs.lookRoomy fs.lookShort := by
  refine .of_eq fun loc item hitem => ?_
  rw [lookRoomy] at hitem
  split at hitem
  · cases hitem
  · next hslash =>
    rw [lookShort, Path.isTooLong_rooted_append (Bool.eq_false_iff.2 hslash)]
    exact hitem

theorem LeadsShort.canonical {place : Location} (hshort : fs.LeadsShort p place)
    (hplace : fs.locate p = .ok place) : fs.canonical p = .ok (place.map .name) := by
  obtain ⟨k, hk, hleads⟩ := hshort.leads
  exact canonical_isOk hplace hshort.present hk (fs.keeps_lookShort.leadsTo hleads)

theorem absolute_ok {segments : List Segment} (h : fs.absolute p = .ok segments) :
    fs.depth p = 0 ∧ segments = (fs.start p).map .name ++ p.moves := by
  unfold absolute at h
  split at h
  · cases h
  · split at h
    · cases h
    · next hdepth => exact ⟨Decidable.not_not.1 hdepth, (Except.ok.inj h).symm⟩

theorem outputPlace_depth {segments : List Segment} (h : fs.outputPlace output = .ok segments) :
    fs.depth output = 0 := by
  unfold outputPlace at h
  split at h
  · obtain ⟨_, _, hdepth, _⟩ := canonical_ok (mapError_ok_iff.1 h)
    exact hdepth
  · obtain ⟨_, habsolute, _⟩ := bind_ok_iff.1 h
    exact (absolute_ok (mapError_ok_iff.1 habsolute)).1

theorem outputPlace_blank {segments : List Segment} (hp : output.segments = [.blank])
    (h : fs.outputPlace output = .ok segments) : segments = [] := by
  unfold outputPlace at h
  split at h
  · obtain ⟨place, hplace, _, rfl⟩ := canonical_ok (mapError_ok_iff.1 h)
    rw [locate_blank hp hplace]
    rfl
  · have habsolute : output.isAbsolute = true := by rw [Path.isAbsolute, hp]; rfl
    have habsolute : fs.absolute output = .ok [] := by
      simp [absolute, Path.isEmpty, depth_of_isAbsolute habsolute, start_of_isAbsolute habsolute,
        Path.moves, hp, Segment.isIdle]
    rw [habsolute] at h
    cases h
    rfl

theorem outputPlace_nonempty {segments : List Segment} (h : fs.outputPlace output = .ok segments) :
    output.isEmpty = false := by
  cases hempty : output.isEmpty with
  | false => rfl
  | true =>
    have hmissing : fs.isThere output = false := by
      simp [isThere, locate, resolve, Path.check, hempty, Except.toBool, bind, Except.bind]
    rw [outputPlace, hmissing, absolute, hempty] at h
    cases h

theorem allowRoots_compared (h : fs.allowRoots input output = .ok ()) : ∃ place compared,
    fs.locate input = .ok place ∧ fs.look place = some .directory ∧
      fs.outputPlace output = .ok compared ∧ ¬ compared <+: place.map .name ∧
      ¬ place.map .name <+: compared := by
  unfold allowRoots at h
  split at h
  · cases h
  · next hstat =>
    obtain ⟨place, hplace, hdir⟩ := stat_ok_iff.1 hstat
    rw [checkRoots] at h
    simp only [bind_ok_iff, mapError_ok_iff] at h
    obtain ⟨inputPlace, hinput, outputPlace, houtput, h⟩ := h
    obtain ⟨place', hplace', _, rfl⟩ := canonical_ok hinput
    obtain rfl : place = place' := Except.ok.inj (hplace.symm.trans hplace')
    split at h
    · cases h
    · next hcontains =>
      split at h
      · cases h
      · next hinside =>
        exact ⟨place, outputPlace, hplace, hdir, houtput,
          fun hprefix => hcontains (List.isPrefixOf_iff_prefix.2 hprefix),
          fun hprefix => hinside (List.isPrefixOf_iff_prefix.2 hprefix)⟩
  · cases h

/-- Roots that are allowed are not written as one slash before nothing, and the output is written
somehow. -/
theorem allowRoots_ok (h : fs.allowRoots input output = .ok ()) :
    input.segments ≠ [.blank] ∧ output.segments ≠ [.blank] ∧ output.isEmpty = false := by
  obtain ⟨place, compared, hplace, _, hcompared, hcontains, hinside⟩ := allowRoots_compared h
  refine ⟨fun hblank => hinside ?_, fun hblank => hcontains ?_, outputPlace_nonempty hcompared⟩
  · rw [locate_blank hblank hplace]
    exact List.nil_prefix
  · rw [outputPlace_blank hblank hcompared]
    exact List.nil_prefix

/-! ## Clearing -/

theorem removeFile_ok (h : fs.removeFile p = .ok fs') : ∃ parent n,
    fs.locateEntry p = .ok (parent ++ [n]) ∧ fs.look (parent ++ [n]) ≠ some .directory ∧
      fs' = fs.erase parent n := by
  rw [removeFile, bind_ok_iff] at h
  obtain ⟨loc, hloc, h⟩ := h
  split at h
  · cases h
  · cases h
  · next n hlast hother =>
    obtain ⟨parent, rfl⟩ := List.getLast?_eq_some_iff.1 hlast
    rw [List.dropLast_concat] at h
    exact ⟨parent, n, hloc, hother, (pure_ok_iff.1 h).symm⟩

theorem removeDirectory_ok (h : fs.removeDirectory p = .ok fs') : ∃ parent n init,
    p.check = .ok () ∧ p.withoutTrailingSlash.segments = init ++ [.name n] ∧
      fs.locate ⟨init ++ [.here]⟩ = .ok parent ∧ fs.look (parent ++ [n]) = some .directory ∧
      fs' = fs.erase parent n := by
  simp only [removeDirectory, bind_ok_iff] at h
  obtain ⟨⟨⟩, hcheck, parent, hparent, h⟩ := h
  split at h
  · cases h
  · cases h
  · cases h
  · cases h
  · cases h
  · next n hlast =>
    obtain ⟨init, hinit⟩ := List.getLast?_eq_some_iff.1 hlast
    rw [if_neg (by rw [hlast]; simp), hinit, List.dropLast_concat] at hparent
    split at h
    · cases h
    · next hdir =>
      split at h
      · exact ⟨parent, n, init, hcheck, hinit, hparent, hdir, (pure_ok_iff.1 h).symm⟩
      · cases h
    · cases h

theorem isAbsolute_last (init : List Segment) (last : Segment) (h : last = .blank → init ≠ []) :
    (Path.mk (init ++ [last])).isAbsolute = (Path.mk init).isAbsolute := by
  cases init with
  | nil => simpa [Path.isAbsolute] using h
  | cons s init => rfl

theorem Leads.before_here {init : List Segment} {k : Nat}
    (h : fs.Leads .thing ⟨init ++ [.here]⟩ k (.found loc)) :
    fs.Leads .thing ⟨init⟩ k (.found loc) ∧ fs.look loc = some .directory := by
  have habsolute := isAbsolute_last init .here (by simp)
  have hout : fs.LeadsOut ⟨init⟩ :=
    h.leadsOut.before habsolute rfl
      (no_step_up [.here] (by simp [Segment.isIdle]) (.inl rfl))
  obtain ⟨i, j, mid, rfl, hi, hj⟩ := h.split habsolute rfl (List.cons_ne_nil _ _) hout
  cases hj with
  | idle hmid _ hj =>
    cases hj
    exact ⟨hi, hmid⟩

theorem removeDirectory_locate (h : fs.removeDirectory p = .ok fs') : ∃ parent n,
    fs.locate p = .ok (parent ++ [n]) ∧ fs' = fs.erase parent n := by
  obtain ⟨parent, n, init, hcheck, hinit, hparent, hdir, rfl⟩ := removeDirectory_ok h
  refine ⟨parent, n, ?_, rfl⟩
  obtain ⟨_, k, hk, hleads⟩ := locate_ok_iff.1 hparent
  obtain ⟨hinit', hmid⟩ := hleads.before_here
  rcases Path.segments_withoutTrailingSlash (Path.segments_ne_nil_of_check hcheck) with
    ⟨hroot, _⟩ | ⟨blanks, hsplit, hblanks, hne⟩
  · have hlast := congrArg List.getLast? (hroot.symm.trans hinit)
    simp at hlast
  · have habsolute : p.isAbsolute = (Path.mk init).isAbsolute := by
      rw [Path.isAbsolute_eq_of_append hsplit hne, ← isAbsolute_last init (.name n) (by simp), ← hinit]
    have hidle : ∀ s ∈ blanks, s.isIdle = true := fun s hs => by rw [hblanks s hs]; rfl
    have hname : LeadsTo fs.look .thing 0 parent (.name n :: blanks) (.found (parent ++ [n])) :=
      .enter hmid rfl hdir (by simp) (.idles hdir hidle)
    have hp : p.segments = init ++ .name n :: blanks := by
      rw [hsplit, hinit, List.append_assoc, List.singleton_append]
    exact locate_ok_iff.2 ⟨hcheck, k, hk, hinit'.append habsolute hp hname (.inl rfl)⟩

theorem clearOutput_ok (h : fs.clearOutput output = (cleared, .ok ())) :
    (cleared = fs ∧ fs.locateEntry output = .error .missing) ∨
      fs.removeFile output = .ok cleared ∨
      ∃ loc, fs.locateEntry output = .ok loc ∧ fs.look loc = some .directory ∧
        ((fs.clear loc).removeDirectory output = .ok cleared ∨
          (cleared = fs.clear loc ∧ cleared.removeDirectory output = .error .missing)) := by
  unfold clearOutput at h
  split at h
  · next hmissing =>
    cases h
    exact .inl ⟨rfl, hmissing⟩
  · cases h
  · next loc hloc =>
    split at h
    · next hdir =>
      simp only [removeTree, hloc, hdir] at h
      refine .inr (.inr ⟨loc, hloc, hdir, ?_⟩)
      cases hremoved : (fs.clear loc).removeDirectory output with
      | ok removed =>
        rw [hremoved] at h
        cases h
        exact .inl rfl
      | error fault =>
        rw [hremoved] at h
        cases fault with
        | missing =>
          cases h
          exact .inr ⟨rfl, hremoved⟩
        | _ => cases h
    · split at h
      · next hremoved =>
        cases h
        exact .inr (.inl hremoved)
      · cases h

theorem clearOutput_part (h : fs.clearOutput output = (cleared, .ok ())) : Part cleared fs := by
  rcases clearOutput_ok h with ⟨rfl, _⟩ | hfile | ⟨loc, _, _, hdirectory | ⟨rfl, _⟩⟩
  · exact .refl cleared
  · obtain ⟨parent, n, _, _, rfl⟩ := removeFile_ok hfile
    exact part_of_erase fs parent n
  · obtain ⟨parent, n, _, _, _, _, _, rfl⟩ := removeDirectory_ok hdirectory
    exact (part_of_erase _ parent n).trans (part_of_clear fs loc)
  · exact part_of_clear fs loc

/-- Before the last segment of a path that leads somewhere there is a directory, to which the path
leads that stays there, unless a step leads up at the end. -/
theorem PathTo.around {last : Segment} {init : List Segment}
    (h : fs.PathTo .thing p (.found loc)) (hp : p.segments = init ++ [last])
    (hblank : p.segments ≠ [.blank]) (hlast : last ≠ .up) :
    ∃ dir, fs.PathTo .thing ⟨init ++ [.here]⟩ (.found dir) ∧
      ∀ n, last = .name n → fs.look (dir ++ [n]) ≠ none := by
  obtain ⟨k, hk, hleads⟩ := h
  have habsolute : p.isAbsolute = (Path.mk init).isAbsolute := by
    rw [← isAbsolute_last init last, ← hp]
    rintro rfl rfl
    exact hblank hp
  have hup : ∀ above, [last].dropWhile Segment.isIdle ≠ .up :: above := by
    cases last <;> simp_all [List.dropWhile, Segment.isIdle]
  obtain ⟨i, j, dir, rfl, hi, hj⟩ := hleads.split habsolute hp (List.cons_ne_nil last [])
    (hleads.leadsOut.before habsolute hp hup)
  have hdir := hj.directory (List.cons_ne_nil last [])
  refine ⟨dir, ⟨i, Nat.le_trans (Nat.le_add_right i j) hk, ?_⟩, ?_⟩
  · exact hi.append (isAbsolute_last init .here (by simp)) rfl (.idle hdir rfl .done) (.inl rfl)
  · rintro n rfl
    exact hj.look_name

/-- What can be missing when a directory is to be removed: what the path leads to before its last
name, or that name. -/
theorem removeDirectory_missing {last : Segment} {init : List Segment} (hcheck : p.check = .ok ())
    (hsplit : p.withoutTrailingSlash.segments = init ++ [last])
    (h : fs.removeDirectory p = .error .missing) :
    (last = .up ∧ fs.locate ⟨init ++ [last]⟩ = .error .missing) ∨
      (last ≠ .up ∧ (fs.locate ⟨init ++ [.here]⟩ = .error .missing ∨
        ∃ parent n, last = .name n ∧ fs.locate ⟨init ++ [.here]⟩ = .ok parent ∧
          fs.look (parent ++ [n]) = none)) := by
  simp only [removeDirectory, hcheck, hsplit, List.dropLast_concat, List.getLast?_concat,
    Option.some.injEq, bind, Except.bind] at h
  by_cases hup : last = .up
  · subst hup
    rw [if_pos rfl] at h
    refine .inl ⟨rfl, ?_⟩
    cases hlocate : fs.locate ⟨init ++ [.up]⟩ with
    | error fault =>
      rw [hlocate] at h
      exact congrArg Except.error (Except.error.inj h)
    | ok parent =>
      rw [hlocate] at h
      cases h
  · rw [if_neg hup] at h
    refine .inr ⟨hup, ?_⟩
    cases hlocate : fs.locate ⟨init ++ [.here]⟩ with
    | error fault =>
      rw [hlocate] at h
      exact .inl (congrArg Except.error (Except.error.inj h))
    | ok parent =>
      rw [hlocate] at h
      cases last with
      | name n =>
        refine .inr ⟨parent, n, rfl, rfl, ?_⟩
        dsimp only at h
        split at h
        · next hnone => exact hnone
        · split at h <;> cases h
        · cases h
      | _ => cases h

theorem removeDirectory_ne_missing (h : fs.isDirectory p = true) :
    fs.removeDirectory p ≠ .error .missing := by
  obtain ⟨loc, hloc, _⟩ := isDirectory_iff.1 h
  obtain ⟨hcheck, hpath⟩ := locate_ok_iff.1 hloc
  have hp := Path.segments_ne_nil_of_check hcheck
  obtain ⟨mid, hmid⟩ := hpath.withoutTrailingSlash hp
  obtain ⟨init, last, hsplit⟩ :=
    (List.eq_nil_or_concat _).resolve_left (Path.withoutTrailingSlash_ne_nil hp)
  rw [List.concat_eq_append] at hsplit
  intro hmissing
  rcases removeDirectory_missing hcheck hsplit hmissing with ⟨rfl, hup⟩ | ⟨hlast, habove⟩
  · rw [← hsplit] at hup
    exact hmid.locate_ne_missing (Path.withoutTrailingSlash_ne_nil hp) hup
  · obtain ⟨dir, hdir, hname⟩ := hmid.around hsplit (Path.withoutTrailingSlash_ne_blank hp) hlast
    rcases habove with habove | ⟨parent, n, rfl, hparent, hnone⟩
    · exact hdir.locate_ne_missing (by simp) habove
    · cases hdir.unique (locate_ok_iff.1 hparent).2
      exact hname n rfl hnone

theorem clearOutput_clears (h : fs.clearOutput output = (cleared, .ok ())) :
    cleared.isDirectory output = false := by
  apply Bool.eq_false_iff.2
  intro hdirectory
  obtain ⟨loc, hloc, hdir⟩ := isDirectory_iff.1 hdirectory
  obtain ⟨hcheck, hpath⟩ := locate_ok_iff.1 hloc
  have hp := Path.segments_ne_nil_of_check hcheck
  -- A directory at the output would have been found by the way in which the output was cleared.
  rcases clearOutput_ok h with ⟨rfl, hmissing⟩ | hfile |
    ⟨place, _, _, hremoved | ⟨_, hmissing⟩⟩
  · obtain ⟨found, hfound, _⟩ := hpath.entry_of_thing
    have hentry := locateEntry_ok_iff.2 ⟨hcheck, hfound⟩
    rw [hmissing] at hentry
    cases hentry
  · obtain ⟨parent, n, hentry, _, rfl⟩ := removeFile_ok hfile
    obtain ⟨found, hfound, hthere⟩ := hpath.entry_of_thing
    cases ((part_of_erase fs parent n).pathTo hfound).unique (locateEntry_ok_iff.1 hentry).2
    exact hthere (by simp [hdir]) (look_erase fs parent n)
  · obtain ⟨parent, n, init, _, hsplit, hparent, _, rfl⟩ := removeDirectory_ok hremoved
    obtain ⟨mid, hmid⟩ := hpath.withoutTrailingSlash hp
    obtain ⟨dir, hdir, hname⟩ :=
      hmid.around hsplit (Path.withoutTrailingSlash_ne_blank hp) (by simp)
    cases ((part_of_erase _ parent n).pathTo hdir).unique (locate_ok_iff.1 hparent).2
    exact hname n rfl (look_erase _ parent n)
  · exact removeDirectory_ne_missing hdirectory hmissing

/-! ## Preparing -/

theorem prepareOutput_cases (h : fs.prepareOutput output = (prepared, .ok ())) :
    ∃ cleared, fs.clearOutput output = (cleared, .ok ()) ∧
      cleared.makeDirectories output = (prepared, .ok ()) := by
  unfold prepareOutput at h
  split at h
  · cases h
  · next cleared hcleared =>
    refine ⟨cleared, hcleared, ?_⟩
    obtain ⟨hstate, hdone⟩ := Prod.mk.inj h
    exact Prod.ext hstate (mapError_ok_iff.1 hdone)

/-- After preparing there is a directory at the output, and no file that was not there before. -/
theorem prepareOutput_ok (h : fs.prepareOutput output = (prepared, .ok ()))
    (houtput : output.isEmpty = false) : prepared.isDirectory output = true ∧
      ∀ loc content, prepared.look loc = some (.file content) →
        fs.look loc = some (.file content) := by
  obtain ⟨cleared, hcleared, hmade⟩ := prepareOutput_cases h
  refine ⟨makeDirectories_isDirectory hmade houtput, fun loc content hfile => ?_⟩
  rcases (makeDirectories_adds hmade).look loc with hsame | ⟨_, hdir⟩
  · exact (clearOutput_part hcleared).look loc _ (hsame ▸ hfile)
  · rw [hfile] at hdir
    cases hdir

/-- An output whose path never leads up is empty when it has been prepared. -/
theorem prepareOutput_empty (h : fs.prepareOutput output = (prepared, .ok ()))
    (houtput : output.isEmpty = false) (hup : .up ∉ output.segments) :
    prepared.EmptyAt output := by
  obtain ⟨cleared, hcleared, hmade⟩ := prepareOutput_cases h
  exact (makeDirectories_new hmade houtput hup (clearOutput_clears hcleared)).1

end FileSystem

end Unseal
