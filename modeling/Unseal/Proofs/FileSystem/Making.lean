import Unseal.Proofs.FileSystem.Paths
/-
  Making — what the operations that make directories change

  Making a directory sets the vacant place that its path leads to. Making it with
  all directories above it adds directories where nothing stood, and where the
  path leads there is a directory afterwards; it does nothing if there was one
  before. A directory that was not there before is empty afterwards, unless its
  path leads up.

  What is proved:
    1. `makeDirectory_sets` — which place is set.
    2. `makeDirectories_adds`, `makeDirectories_isDirectory` — what comes of making
       a directory with all directories above it.
    3. `makeDirectories_of_isDirectory` — a directory that is there is not made.
    4. `makeDirectories_new` — a directory that was not there is empty then, and
       stands where the names of the path go on from what was there.
-/

namespace Unseal

namespace FileSystem

variable {fs fs' mid : FileSystem} {p : Path} {loc : Location}

/-- Only directories have been added, where nothing stood. -/
structure Adds (fs fs' : FileSystem) : Prop where
  workingDirectory : fs'.workingDirectory = fs.workingDirectory
  removed : fs'.removed = fs.removed
  look : ∀ loc, fs'.look loc = fs.look loc ∨
    (fs.look loc = none ∧ fs'.look loc = some .directory)

theorem Adds.refl (fs : FileSystem) : Adds fs fs := ⟨rfl, rfl, fun _ => .inl rfl⟩

theorem Adds.trans (h : Adds fs mid) (h' : Adds mid fs') : Adds fs fs' := by
  refine ⟨h'.workingDirectory.trans h.workingDirectory, h'.removed.trans h.removed, fun loc => ?_⟩
  rcases h.look loc with hold | ⟨hnone, hmid⟩
  · rw [← hold]
    exact h'.look loc
  · rcases h'.look loc with hsame | ⟨hmid', _⟩
    · exact .inr ⟨hnone, hsame.trans hmid⟩
    · rw [hmid] at hmid'
      cases hmid'

theorem Adds.grows (h : Adds fs fs') : Grows fs fs' := by
  refine ⟨h.workingDirectory, h.removed, fun loc item hitem => ⟨item, ?_, .refl item⟩⟩
  rcases h.look loc with hsame | ⟨hnone, _⟩
  · rw [hsame, hitem]
  · rw [hnone] at hitem
    cases hitem

theorem Sets.adds (h : Sets fs fs' loc .directory) (hnone : fs.look loc = none) : Adds fs fs' := by
  refine ⟨h.workingDirectory, h.removed, fun place => ?_⟩
  by_cases hplace : place = loc
  · subst hplace
    exact .inr ⟨hnone, h.self⟩
  · exact .inl (h.other place hplace)

/-! ## Making a directory -/

theorem makeEntry_ok_iff {x : Node} : fs.makeEntry p x = .ok fs' ↔
    ∃ parent n, fs.resolve .entry p = .ok (.vacant parent n) ∧ fs.put parent n x = fs' := by
  rw [makeEntry, bind_ok_iff]
  refine ⟨?_, ?_⟩
  · intro h
    obtain ⟨t, ht, h⟩ := h
    cases t with
    | found loc => cases h
    | vacant parent n => exact ⟨parent, n, ht, pure_ok_iff.1 h⟩
  · intro h
    obtain ⟨parent, n, ht, rfl⟩ := h
    exact ⟨_, ht, rfl⟩

/-- A directory is made at a vacant place, and then the path leads there. -/
theorem makeDirectory_sets (h : fs.makeDirectory p = .ok fs') :
    ∃ parent n, fs.PathTo .entry p.withoutTrailingSlash (.vacant parent n) ∧
      fs.look (parent ++ [n]) = none ∧ Sets fs fs' (parent ++ [n]) .directory ∧
      fs'.locate p = .ok (parent ++ [n]) := by
  simp only [makeDirectory, bind_ok_iff, makeEntry_ok_iff, resolve_ok_iff] at h
  obtain ⟨⟨⟩, hcheck, parent, n, ⟨_, hvacant⟩, rfl⟩ := h
  obtain ⟨hdir, hnone⟩ := hvacant.vacancy
  have hsets : Sets fs (fs.put parent n (.directory [])) (parent ++ [n]) .directory :=
    put_sets hdir (by simp [hnone]) (fun _ => rfl)
  refine ⟨parent, n, hvacant, hnone, hsets, locate_ok_iff.2 ⟨hcheck, ?_⟩⟩
  -- The path without its slashes leads to the new directory, and the slashes stay there.
  obtain ⟨k, hk, hfound⟩ := (hsets.adds hnone).grows.settled hvacant hsets.self (by simp)
  rcases Path.segments_withoutTrailingSlash (Path.segments_ne_nil_of_check hcheck) with
    ⟨hroot, _⟩ | ⟨blanks, hsplit, hblanks, hne⟩
  · obtain ⟨_, _, hleads⟩ := hvacant
    have habsolute : p.withoutTrailingSlash.isAbsolute = true := by rw [Path.isAbsolute, hroot]; rfl
    rw [leads_iff (depth_of_isAbsolute habsolute), hroot] at hleads
    cases hleads with
    | idle _ _ h =>
      cases h with
      | idle _ _ h => cases h
  · have habsolute := Path.isAbsolute_eq_of_append hsplit hne
    have hidle : ∀ s ∈ blanks, s.isIdle = true := fun s hs => by rw [hblanks s hs]; rfl
    exact ⟨k, hk, hfound.append habsolute hsplit (.idles hsets.self hidle) (.inl rfl)⟩

theorem PathTo.withoutTrailingSlash (h : fs.PathTo .thing p (.found loc)) (hp : p.segments ≠ []) :
    ∃ mid, fs.PathTo .thing p.withoutTrailingSlash (.found mid) := by
  obtain ⟨k, hk, hleads⟩ := h
  rcases Path.segments_withoutTrailingSlash hp with ⟨hroot, habsolute⟩ | ⟨blanks, hsplit, hblanks, hne⟩
  · have habsolute' : p.withoutTrailingSlash.isAbsolute = true := by rw [Path.isAbsolute, hroot]; rfl
    rw [leads_iff (depth_of_isAbsolute habsolute), start_of_isAbsolute habsolute] at hleads
    refine ⟨[], 0, Nat.zero_le _, (leads_iff (depth_of_isAbsolute habsolute')).2 ?_⟩
    rw [start_of_isAbsolute habsolute', hroot]
    exact .idles (hleads.directory hp) (by simp [Segment.isIdle])
  · have habsolute := Path.isAbsolute_eq_of_append hsplit hne
    by_cases hnil : blanks = []
    · rw [hnil, List.append_nil] at hsplit
      have hpath : p = p.withoutTrailingSlash := congrArg Path.mk hsplit
      exact ⟨loc, k, hk, hpath ▸ hleads⟩
    · have hidle : ∀ s ∈ blanks, s.isIdle = true := fun s hs => by rw [hblanks s hs]; rfl
      have hout := hleads.leadsOut.before habsolute hsplit
        (List.append_nil blanks ▸ no_step_up blanks hidle (.inl rfl))
      obtain ⟨i, j, mid, rfl, hi, _⟩ := hleads.split habsolute hsplit hnil hout
      exact ⟨mid, i, Nat.le_trans (Nat.le_add_right i j) hk, hi⟩

theorem makeDirectory_of_isDirectory (h : fs.isDirectory p = true) :
    ∃ fault, fs.makeDirectory p = .error fault ∧ fault ≠ .missing := by
  obtain ⟨loc, hloc, _⟩ := isDirectory_iff.1 h
  obtain ⟨hcheck, hpath⟩ := locate_ok_iff.1 hloc
  have hp := Path.segments_ne_nil_of_check hcheck
  have hne := Path.withoutTrailingSlash_ne_nil hp
  -- What a path leads to through links has an entry, at which making a directory stops.
  obtain ⟨mid, hmid⟩ := hpath.withoutTrailingSlash hp
  obtain ⟨loc', hfound, _⟩ := hmid.entry_of_thing
  have hmake : fs.makeDirectory p = fs.makeEntry p.withoutTrailingSlash (.directory []) := by
    rw [makeDirectory, hcheck]
    rfl
  rw [hmake]
  cases hq : p.withoutTrailingSlash.check with
  | error fault =>
    refine ⟨fault, ?_, Path.check_error hne hq⟩
    rw [makeEntry, resolve, hq]
    rfl
  | ok _ =>
    refine ⟨.alreadyThere, ?_, by simp⟩
    rw [makeEntry, resolve_ok_iff.2 ⟨hq, hfound⟩]
    rfl

/-- Above what a path leads to stands the directory that its parent leads to, if that leads out of
what is removed, and the path goes on from there with a segment that moves. -/
theorem PathTo.above {q : Path} {t : Target} (h : fs.PathTo .thing p t)
    (hparent : p.parent? = some q) (hq : q.check = .ok ()) (hout : fs.LeadsOut q) :
    ∃ mid last rest j, fs.locate q = .ok mid ∧ fs.look mid = some .directory ∧ last ∈ p.segments ∧
      last.isIdle = false ∧ LeadsTo fs.look .thing j mid (last :: rest) t := by
  obtain ⟨k, hk, hleads⟩ := h
  have hne := Path.segments_ne_nil_of_check hq
  obtain ⟨front, idles, last, rest, hsplit, hlast, hidles, _, hfront⟩ :=
    Path.segments_parent hparent hne
  have hmem : last ∈ p.segments := by simp [hsplit]
  rcases hfront with hfront | ⟨rfl, hroot⟩
  · subst hfront
    have habsolute := Path.isAbsolute_eq_of_append hsplit hne
    obtain ⟨i, j, mid, rfl, hi, hj⟩ := hleads.split habsolute hsplit (by simp) hout
    exact ⟨mid, last, rest, j,
      locate_ok_iff.2 ⟨hq, i, Nat.le_trans (Nat.le_add_right i j) hk, hi⟩,
      hj.directory (by simp), hmem, hlast, hj.skip_idles hidles⟩
  · have habsolute : p.isAbsolute = true := by rw [Path.isAbsolute, hsplit]; rfl
    have habsolute' : q.isAbsolute = true := by rw [Path.isAbsolute, hroot]; rfl
    rw [leads_iff (depth_of_isAbsolute habsolute), start_of_isAbsolute habsolute] at hleads
    have hdir := hleads.directory (by simp [hsplit])
    rw [hsplit, ← List.append_assoc] at hleads
    refine ⟨[], last, rest, k, locate_ok_iff.2 ⟨hq, 0, Nat.zero_le _, ?_⟩, hdir, hmem, hlast,
      hleads.skip_idles ?_⟩
    · rw [leads_iff (depth_of_isAbsolute habsolute'), start_of_isAbsolute habsolute', hroot]
      exact .idles hdir (by simp [Segment.isIdle])
    · intro s hs
      rcases List.mem_append.1 hs with hs | hs
      · obtain rfl := List.mem_singleton.1 hs
        rfl
      · exact hidles s hs

theorem PathTo.isDirectory_parent {q : Path} {t : Target} (h : fs.PathTo .thing p t)
    (hparent : p.parent? = some q) (hq : q.check = .ok ()) (hout : fs.LeadsOut q) :
    fs.isDirectory q = true := by
  obtain ⟨mid, _, _, _, hmid, hdir, _⟩ := h.above hparent hq hout
  exact isDirectory_iff.2 ⟨mid, hmid, hdir⟩

theorem LeadsOut.parent {q : Path} {init : List Segment} {n : Name} (h : fs.LeadsOut p)
    (hname : p.segments = init ++ [.name n]) (hparent : p.parent? = some q) (hq : q.segments ≠ []) :
    fs.LeadsOut q := by
  obtain ⟨front, idles, last, rest, hsplit, hlast, hidles, hrest, hfront⟩ :=
    Path.segments_parent hparent hq
  rcases hfront with hfront | ⟨_, hroot⟩
  · subst hfront
    have hcut := hname.symm.trans hsplit
    rw [← List.append_assoc] at hcut
    obtain ⟨_, rfl⟩ := Path.last_move_unique hcut rfl hlast (by simp) hrest
    exact h.before (Path.isAbsolute_eq_of_append hsplit hq) hsplit
      (no_step_up idles hidles (.inr ⟨n, rest, rfl⟩))
  · have habsolute : q.isAbsolute = true := by rw [Path.isAbsolute, hroot]; rfl
    exact ⟨q.segments, by rw [depth_of_isAbsolute habsolute]; rfl⟩

theorem settled_of_ok {fault : FileFault}
    (h : (fs, if fs.isDirectory p then .ok () else .error fault) =
      (fs', (.ok () : Except FileFault Unit))) : fs' = fs ∧ fs.isDirectory p = true := by
  split at h
  · next hdir =>
    cases h
    exact ⟨rfl, hdir⟩
  · cases h

theorem made_of_ok (h : (match fs.makeDirectory p with
      | .ok made => (made, .ok ())
      | .error fault => (fs, if fs.isDirectory p then .ok () else .error fault)) =
        (fs', (.ok () : Except FileFault Unit))) :
    fs.makeDirectory p = .ok fs' ∨ (fs' = fs ∧ fs.isDirectory p = true) := by
  split at h
  · next made hmade =>
    cases h
    exact .inl hmade
  · exact .inr (settled_of_ok h)

/-- The ways in which making a directory with all directories above it succeeds: it is made at
once, or it is there, or it is made or there after those above it have been made. -/
theorem makeMissing_ok {steps : Nat} (h : fs.makeMissing (steps + 1) p = (fs', .ok ()))
    (hp : p.isEmpty = false) :
    fs.makeDirectory p = .ok fs' ∨ (fs' = fs ∧ fs.isDirectory p = true) ∨
      ∃ mid, (mid = fs ∨ ∃ above, p.parent? = some above ∧
          fs.makeMissing steps above = (mid, .ok ())) ∧ fs.makeDirectory p = .error .missing ∧
        (mid.makeDirectory p = .ok fs' ∨ (fs' = mid ∧ mid.isDirectory p = true)) := by
  simp only [makeMissing, hp] at h
  split at h
  · next h' => cases h'
  · split at h
    · next made hmade =>
      cases h
      exact .inl hmade
    · next hmissing =>
      refine .inr (.inr ?_)
      split at h
      · exact ⟨fs, .inl rfl, hmissing, made_of_ok h⟩
      · next above habove =>
        split at h
        · cases h
        · next mid hmid => exact ⟨mid, .inr ⟨above, habove, hmid⟩, hmissing, made_of_ok h⟩
    · exact .inr (.inl (settled_of_ok h))

theorem makeMissing_of_isEmpty (hp : p.isEmpty = true) (steps : Nat) :
    fs.makeMissing steps p = (fs, .ok ()) := by
  cases steps with
  | zero => rfl
  | succ steps => simp only [makeMissing, hp, if_true]

theorem makeMissing_adds {steps : Nat} (h : fs.makeMissing steps p = (fs', .ok ())) :
    Adds fs fs' := by
  have hmade : ∀ {fs fs' : FileSystem} {p : Path}, fs.makeDirectory p = .ok fs' → Adds fs fs' := by
    intro fs fs' p h
    obtain ⟨parent, n, _, hnone, hsets, _⟩ := makeDirectory_sets h
    exact hsets.adds hnone
  induction steps generalizing fs' p with
  | zero =>
    cases h
    exact .refl fs
  | succ steps ih =>
    cases hp : p.isEmpty with
    | true =>
      rw [makeMissing_of_isEmpty hp] at h
      cases h
      exact .refl fs
    | false =>
      rcases makeMissing_ok h hp with hmake | ⟨rfl, _⟩ | ⟨mid, hmid, _, hmake⟩
      · exact hmade hmake
      · exact .refl fs'
      · have habove : Adds fs mid := by
          rcases hmid with rfl | ⟨above, _, habove⟩
          · exact .refl mid
          · exact ih habove
        rcases hmake with hmake | ⟨rfl, _⟩
        · exact habove.trans (hmade hmake)
        · exact habove

theorem makeDirectories_adds (h : fs.makeDirectories p = (fs', .ok ())) : Adds fs fs' :=
  makeMissing_adds h

/-- There is a directory where one was to be made. -/
theorem makeDirectories_isDirectory (h : fs.makeDirectories p = (fs', .ok ()))
    (hp : p.isEmpty = false) : fs'.isDirectory p = true := by
  have hmade : ∀ {fs : FileSystem}, fs.makeDirectory p = .ok fs' → fs'.isDirectory p = true := by
    intro fs h
    obtain ⟨parent, n, _, _, hsets, hloc⟩ := makeDirectory_sets h
    exact isDirectory_iff.2 ⟨_, hloc, hsets.self⟩
  rcases makeMissing_ok h hp with hmake | ⟨rfl, hdir⟩ | ⟨mid, _, _, hmake | ⟨rfl, hdir⟩⟩
  · exact hmade hmake
  · exact hdir
  · exact hmade hmake
  · exact hdir

theorem makeMissing_of_isDirectory (h : fs.isDirectory p = true) (steps : Nat) :
    fs.makeMissing steps p = (fs, .ok ()) := by
  cases steps with
  | zero => rfl
  | succ steps =>
    obtain ⟨fault, hfault, hne⟩ := makeDirectory_of_isDirectory h
    obtain ⟨loc, hloc, _⟩ := isDirectory_iff.1 h
    have hp : p.isEmpty = false := by
      rw [Path.isEmpty, List.isEmpty_eq_false_iff]
      exact Path.segments_ne_nil_of_check (locate_ok_iff.1 hloc).1
    simp only [makeMissing, hp, hfault, h, Bool.false_eq_true, if_false, if_true]

theorem makeDirectories_of_isDirectory (h : fs.isDirectory p = true) :
    fs.makeDirectories p = (fs, .ok ()) :=
  makeMissing_of_isDirectory h _

/-- The path leads to a directory in which there is nothing. -/
def EmptyAt (fs : FileSystem) (p : Path) : Prop :=
  ∃ loc, fs.locate p = .ok loc ∧ fs.look loc = some .directory ∧
    ∀ rest, rest ≠ [] → fs.look (loc ++ rest) = none

theorem emptyAt_of_makeDirectory (h : fs.makeDirectory p = .ok fs') : fs'.EmptyAt p := by
  obtain ⟨parent, n, _, hnone, hsets, hloc⟩ := makeDirectory_sets h
  refine ⟨parent ++ [n], hloc, hsets.self, fun rest hrest => ?_⟩
  rw [hsets.other _ (by simpa using hrest)]
  exact look_below (by simp [hnone]) hrest

/-- The path leads to a directory and goes on from there with names, at the first of which nothing
stands. -/
structure GoesBeyond (fs : FileSystem) (p : Path) (dir : Location) (way : List Name) : Prop where
  begins : ∃ k front rest, p.segments = front ++ rest ∧
    LeadsTo fs.look .thing k (fs.start p) front (.found dir) ∧
    rest.filter (!·.isIdle) = way.map .name
  here : fs.look dir = some .directory
  beyond : ∃ n more, way = n :: more ∧ fs.look (dir ++ [n]) = none

theorem PathTo.before_vacant {parent : Location} {n : Name} (hp : p.segments ≠ [])
    (h : fs.PathTo .entry p.withoutTrailingSlash (.vacant parent n)) :
    ∃ k front blanks, k ≤ linkLimit ∧ p.segments = front ++ .name n :: blanks ∧
      (∀ s ∈ blanks, s.isIdle = true) ∧ p.isAbsolute = (Path.mk front).isAbsolute ∧
      fs.Leads .thing ⟨front⟩ k (.found parent) := by
  obtain ⟨k, hk, segments, hclimb, hleads⟩ := h
  obtain ⟨front', rfl, hparent⟩ := hleads.before_vacant
  obtain ⟨gone, hgone⟩ := climb_suffix hclimb
  rw [← List.append_assoc] at hgone
  rcases Path.segments_withoutTrailingSlash hp with ⟨hroot, _⟩ | ⟨blanks, hsplit, hblanks, hne⟩
  · rw [hroot] at hgone
    have hlast := congrArg List.getLast? hgone
    simp at hlast
  · have hfront : p.isAbsolute = (Path.mk (gone ++ front')).isAbsolute := by
      rw [Path.isAbsolute_eq_of_append hsplit hne, Path.isAbsolute, Path.isAbsolute, ← hgone]
      cases gone ++ front' <;> rfl
    have habsolute := hfront.symm.trans (Path.isAbsolute_eq_of_append hsplit hne)
    rw [← hgone, ← depth_congr habsolute] at hclimb
    rw [← start_congr habsolute] at hparent
    obtain ⟨left, hleft, hcut⟩ := climb_before hclimb
      (no_step_up [] (by simp) (.inr ⟨n, [], rfl⟩))
    obtain rfl := List.append_cancel_right hcut
    refine ⟨k, gone ++ front', blanks, hk, ?_, fun s hs => by rw [hblanks s hs]; rfl, hfront,
      front', hleft, hparent⟩
    rw [hsplit, ← hgone, List.append_assoc]
    rfl

theorem goesBeyond_of_makeDirectory (h : fs.makeDirectory p = .ok fs') (hup : .up ∉ p.segments) :
    ∃ dir way, fs.GoesBeyond p dir way ∧ fs'.locate p = .ok (dir ++ way) := by
  obtain ⟨parent, n, hvacant, hnone, _, hloc⟩ := makeDirectory_sets h
  have hp := Path.segments_ne_nil_of_check (locate_ok_iff.1 hloc).1
  obtain ⟨k, front, blanks, _, hsplit, hblanks, habsolute, hleads⟩ := hvacant.before_vacant hp
  have hfront : .up ∉ front := fun hmem => hup (hsplit ▸ List.mem_append_left _ hmem)
  rw [leads_iff (hleads.depth_eq hfront), ← start_congr habsolute] at hleads
  refine ⟨parent, [n], ⟨⟨k, front, _, hsplit, hleads, ?_⟩, hvacant.vacancy.1, n, [], rfl, hnone⟩,
    hloc⟩
  rw [List.filter_cons_of_pos rfl, List.filter_eq_nil_iff.2 (by simpa using hblanks)]
  rfl

theorem start_of_makeDirectory (h : fs.makeDirectory p = .ok fs') (hpresent : fs.depth p = 0) :
    fs.look (fs.start p) = some .directory := by
  obtain ⟨parent, n, hvacant, _, _, hloc⟩ := makeDirectory_sets h
  have hp := Path.segments_ne_nil_of_check (locate_ok_iff.1 hloc).1
  obtain ⟨k, front, _, _, _, _, habsolute, hleads⟩ := hvacant.before_vacant hp
  rw [leads_iff (depth_congr habsolute ▸ hpresent), ← start_congr habsolute] at hleads
  exact hleads.directory_start hvacant.vacancy.1

theorem makeMissing_start {steps : Nat} (h : fs.makeMissing steps p = (fs', .ok ()))
    (hp : p.isEmpty = false) (hpresent : fs.depth p = 0) :
    fs' = fs ∨ fs.look (fs.start p) = some .directory := by
  induction steps generalizing p fs' with
  | zero =>
    cases h
    exact .inl rfl
  | succ steps ih =>
    rcases makeMissing_ok h hp with hmake | ⟨rfl, _⟩ | ⟨mid, hmid, _, hmake⟩
    · exact .inr (start_of_makeDirectory hmake hpresent)
    · exact .inl rfl
    · have hmid : mid = fs ∨ fs.look (fs.start p) = some .directory := by
        rcases hmid with rfl | ⟨above, habove, hmid⟩
        · exact .inl rfl
        · cases hempty : above.isEmpty with
          | true =>
            rw [makeMissing_of_isEmpty hempty] at hmid
            exact .inl (Prod.mk.inj hmid).1.symm
          | false =>
            have habsolute := Path.isAbsolute_parent habove (List.isEmpty_eq_false_iff.1 hempty)
            rw [depth_congr habsolute] at hpresent
            rw [start_congr habsolute]
            exact ih hmid hempty hpresent
      rcases hmid with rfl | hstart
      · rcases hmake with hmake | ⟨rfl, _⟩
        · exact .inr (start_of_makeDirectory hmake hpresent)
        · exact .inl rfl
      · exact .inr hstart

theorem GoesBeyond.makeDirectory {above : Path} {dir : Location} {way : List Name}
    (h : fs.GoesBeyond above dir way) (hparent : p.parent? = some above)
    (hlocate : mid.locate above = .ok (dir ++ way))
    (hdir : mid.look (dir ++ way) = some .directory)
    (hmake : mid.makeDirectory p = .ok fs') :
    ∃ n, fs.GoesBeyond p dir (way ++ [n]) ∧ fs'.locate p = .ok (dir ++ (way ++ [n])) := by
  obtain ⟨parent, n, hvacant, _, _, hloc⟩ := makeDirectory_sets hmake
  have hp := Path.segments_ne_nil_of_check (locate_ok_iff.1 hloc).1
  obtain ⟨hcheck, j, _, habove⟩ := locate_ok_iff.1 hlocate
  have hne := Path.segments_ne_nil_of_check hcheck
  obtain ⟨_, front', blanks, _, hsplit', hblanks, _, hleads⟩ := hvacant.before_vacant hp
  obtain ⟨front, idles, last, idles', hsplit, hlast, hidles, hidles', hfront⟩ :=
    Path.segments_parent hparent hne
  obtain ⟨k, begin, rest, hbegin, hbegins, hrest⟩ := h.begins
  obtain ⟨m, more, hway, hbeyond⟩ := h.beyond
  rcases hfront with hfront | ⟨_, hroot⟩
  · -- The name that is made is the last segment that moves, and the path before it leads above.
    subst hfront
    have hcut := hsplit'.symm.trans hsplit
    rw [← List.append_assoc] at hcut
    obtain ⟨rfl, rfl⟩ := Path.last_move_unique hcut rfl hlast hblanks hidles'
    have habsolute := Path.isAbsolute_eq_of_append hsplit hne
    have hidle : LeadsTo mid.look .thing 0 (dir ++ way) idles (.found (dir ++ way)) :=
      .idles hdir hidles
    have hfound : mid.Leads .thing ⟨above.segments ++ idles⟩ (j + 0) (.found (dir ++ way)) :=
      habove.append (Path.isAbsolute_eq_of_append rfl hne) rfl hidle (.inl rfl)
    cases hfound.unique hleads
    refine ⟨n, ⟨⟨k, begin, rest ++ idles ++ .name n :: idles', ?_, ?_, ?_⟩, h.here, ?_⟩, ?_⟩
    · rw [hsplit, hbegin]
      simp only [List.append_assoc]
    · rwa [start_congr habsolute]
    · rw [List.filter_append, List.filter_append, hrest, List.filter_cons_of_pos rfl,
        List.filter_eq_nil_iff.2 (by simpa using hidles),
        List.filter_eq_nil_iff.2 (by simpa using hidles'), List.append_nil, List.map_append]
      rfl
    · exact ⟨m, more ++ [n], by rw [hway]; rfl, hbeyond⟩
    · rwa [← List.append_assoc]
  · have hblank : ∀ s ∈ rest, s.isIdle = true := by
      intro s hs
      have hmem : s ∈ above.segments := hbegin ▸ List.mem_append_right begin hs
      rw [hroot] at hmem
      rcases List.mem_cons.1 hmem with rfl | hmem
      · rfl
      · rw [List.mem_singleton.1 hmem]
        rfl
    rw [List.filter_eq_nil_iff.2 (by simpa using hblank), hway] at hrest
    cases hrest

/-- A directory that was not there is not made, or else, if its path never leads up, the names of
the path go beyond what was there, and at their end the directory is empty: a name behind a
directory that has just been made leads to nothing. -/
theorem makeMissing_new {steps : Nat} (h : fs.makeMissing steps p = (fs', .ok ()))
    (hp : p.isEmpty = false) (hup : .up ∉ p.segments) (hnone : fs.isDirectory p = false) :
    fs' = fs ∨ fs'.EmptyAt p ∧
      ∃ dir way, fs.GoesBeyond p dir way ∧ fs'.locate p = .ok (dir ++ way) := by
  induction steps generalizing p fs' with
  | zero =>
    cases h
    exact .inl rfl
  | succ steps ih =>
    rcases makeMissing_ok h hp with hmake | ⟨rfl, _⟩ | ⟨mid, hmid, hmissing, hmake⟩
    · exact .inr ⟨emptyAt_of_makeDirectory hmake, goesBeyond_of_makeDirectory hmake hup⟩
    · exact .inl rfl
    · have hmid : mid = fs ∨ ∃ above, p.parent? = some above ∧ mid.EmptyAt above ∧
          ∃ dir way, fs.GoesBeyond above dir way ∧ mid.locate above = .ok (dir ++ way) := by
        rcases hmid with rfl | ⟨above, habove, hmid⟩
        · exact .inl rfl
        · cases hempty : above.isEmpty with
          | true =>
            rw [makeMissing_of_isEmpty hempty] at hmid
            exact .inl (Prod.mk.inj hmid).1.symm
          | false =>
            -- A directory that was there before may hold anything, but then none was made.
            cases hdir : fs.isDirectory above with
            | true =>
              rw [makeMissing_of_isDirectory hdir] at hmid
              exact .inl (Prod.mk.inj hmid).1.symm
            | false =>
              have hup' : .up ∉ above.segments := by
                intro h
                exact hup (Path.mem_of_mem_parent habove h (by simp))
              exact (ih hmid hempty hup' hdir).imp id fun h => ⟨above, habove, h⟩
      rcases hmake with hmake | ⟨rfl, hdir⟩
      · refine .inr ⟨emptyAt_of_makeDirectory hmake, ?_⟩
        rcases hmid with rfl | ⟨above, habove, ⟨loc, hloc, hdir, _⟩, dir, way, hbeyond, hlocate⟩
        · exact goesBeyond_of_makeDirectory hmake hup
        · obtain rfl : loc = dir ++ way := Except.ok.inj (hloc.symm.trans hlocate)
          obtain ⟨n, hnew⟩ := hbeyond.makeDirectory habove hlocate hdir hmake
          exact ⟨dir, way ++ [n], hnew⟩
      · rcases hmid with rfl | ⟨above, habove, ⟨dir, hdir', _, hbelow⟩, _⟩
        · exact .inl rfl
        · obtain ⟨loc, hloc, _⟩ := isDirectory_iff.1 hdir
          obtain ⟨_, _, _, hleads⟩ := locate_ok_iff.1 hdir'
          have hout := hleads.leadsOut
          obtain ⟨dir', last, rest, j, hdir'', _, hmem, hlast, hleads⟩ :=
            (locate_ok_iff.1 hloc).2.above habove (locate_ok_iff.1 hdir').1 hout
          obtain rfl : dir' = dir := Except.ok.inj (hdir''.symm.trans hdir')
          -- Behind the new directory there is nothing to go on to but the way up.
          cases last with
          | name n => exact absurd (hbelow [n] (List.cons_ne_nil n [])) hleads.look_name
          | up => exact absurd hmem hup
          | blank | here => cases hlast
          | unfit text =>
            cases hleads with
            | idle _ hidle => cases hidle

/-- A directory that was not there before is empty and is told by the names beyond what was there,
if its path never leads up. -/
theorem makeDirectories_new (h : fs.makeDirectories p = (fs', .ok ())) (hp : p.isEmpty = false)
    (hup : .up ∉ p.segments) (hnone : fs.isDirectory p = false) : fs'.EmptyAt p ∧
      ∃ dir way, fs.GoesBeyond p dir way ∧ fs'.locate p = .ok (dir ++ way) := by
  have hdir := makeDirectories_isDirectory h hp
  rcases makeMissing_new h hp hup hnone with rfl | hnew
  · rw [hnone] at hdir
    cases hdir
  · exact hnew

end FileSystem

end Unseal
