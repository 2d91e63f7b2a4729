import Unseal.Proofs.Run.Mirror
/-
  Apart — how the prepared output stands to the input

  The roots of a run are compared before the output is cleared, but what is
  compared is not always what is made. An output that is there is compared as the
  place it leads to, so whatever is cleared stands apart from the input, and no
  file and no directory of the input is lost. An output that is not there is
  compared as it is written, or in the place of the directory written above it;
  then a link further up, or a step up behind a directory that is still to be
  made, can lead to another place. Where a path never leads up, the directory
  behind which its names go beyond what is there decides: the output lies in the
  input exactly if that directory does. It cannot if the path meets no link, and
  not, wherever the path leads up, if the directory written above it is there.

  What is proved:
    1. `clearOutput_keeps` — clearing takes no file and no directory out of the
       input.
    2. `outputPlace_straight` — a path on which no link is met is compared as the
       place to which it leads.
    3. `prepareOutput_written` — an output that is not there is made in the directory
       that is written above it, if this is there.
    4. `prepareOutput_roots` — what is cleared stands apart from the input, and
       when what is made does.
    5. `prepareOutput_in_input` — a path that leads up and one that passes a link
       by which the output is made in the input.
-/

namespace Unseal

/-- Neither place is the other or lies in it. -/
def Apart (a b : Location) : Prop := ¬ a <+: b ∧ ¬ b <+: a

theorem Apart.away {a b loc : Location} (h : Apart a b) (hin : a <+: loc) : ¬ b <+: loc := by
  intro hb
  rcases List.prefix_or_prefix_of_prefix hin hb with hab | hba
  · exact h.1 hab
  · exact h.2 hba

theorem prefix_map_name_iff {a b : List Name} :
    a.map Segment.name <+: b.map Segment.name ↔ a <+: b := by
  refine ⟨?_, fun h => h.map Segment.name⟩
  rintro ⟨rest, hrest⟩
  obtain ⟨front, behind, rfl, hfront, _⟩ := List.map_eq_append_iff.1 hrest.symm
  obtain rfl : front = a := (List.map_inj_right fun _ _ h => Segment.name.inj h).1 hfront
  exact List.prefix_append front behind

theorem apart_of_written {a b : Location} (hcontains : ¬ b.map Segment.name <+: a.map Segment.name)
    (hinside : ¬ a.map Segment.name <+: b.map Segment.name) : Apart a b :=
  ⟨mt prefix_map_name_iff.2 hinside, mt prefix_map_name_iff.2 hcontains⟩

theorem isPrefixOf_written {a b : Location} (h : ¬ a <+: b) :
    (a.map Segment.name).isPrefixOf (b.map Segment.name) = false := by
  rw [Bool.eq_false_iff, Ne, List.isPrefixOf_iff_prefix, prefix_map_name_iff]
  exact h

namespace FileSystem

variable {fs cleared prepared : FileSystem} {p input output : Path} {place loc : Location}
  {compared : List Segment} {item : Item}

/-! ## What is compared -/

theorem isThere_iff : fs.isThere p = true ↔ ∃ loc, fs.locate p = .ok loc := by
  rw [isThere]
  cases fs.locate p <;> simp [Except.toBool]

theorem isThere_of_error {fault : FileFault} (h : fs.locate p = .error fault) :
    fs.isThere p = false := by
  rw [isThere, h]
  rfl

theorem outputPlace_there (hloc : fs.locate output = .ok loc)
    (h : fs.outputPlace output = .ok compared) : compared = loc.map .name := by
  rw [outputPlace, if_pos (isThere_iff.2 ⟨loc, hloc⟩)] at h
  obtain ⟨loc', hloc', _, rfl⟩ := canonical_ok (mapError_ok_iff.1 h)
  rw [Except.ok.inj (hloc.symm.trans hloc')]

theorem allowRoots_apart (h : fs.allowRoots input output = .ok ())
    (hplace : fs.locate input = .ok place) (hloc : fs.locate output = .ok loc) :
    Apart place loc := by
  obtain ⟨place', compared, hplace', _, hcompared, hcontains, hinside⟩ := allowRoots_compared h
  obtain rfl : place = place' := Except.ok.inj (hplace.symm.trans hplace')
  rw [outputPlace_there hloc hcompared] at hcontains hinside
  exact apart_of_written hcontains hinside

theorem allowRoots_of_apart (hplace : fs.locate input = .ok place)
    (hdir : fs.look place = some .directory) (hinput : fs.canonical input = .ok (place.map .name))
    (houtput : fs.outputPlace output = .ok (loc.map .name)) (hapart : Apart place loc) :
    fs.allowRoots input output = .ok () := by
  have hstat : fs.stat input = .ok .directory := stat_ok_iff.2 ⟨place, hplace, hdir⟩
  rw [allowRoots, hstat]
  simp only [checkRoots, hinput, houtput, mapError_of_ok, bind, Except.bind,
    isPrefixOf_written hapart.1, isPrefixOf_written hapart.2]
  rfl

/-! ## What is cleared -/

theorem locate_of_locateEntry (h : fs.locateEntry p = .ok loc)
    (hlink : ∀ target, fs.look loc ≠ some (.link target)) : fs.locate p = .ok loc := by
  obtain ⟨hcheck, k, hk, segments, hclimb, hleads⟩ := locateEntry_ok_iff.1 h
  exact locate_ok_iff.2 ⟨hcheck, k, hk, segments, hclimb, hleads.thing_of_entry_found hlink⟩

theorem allowRoots_apart_directory (h : fs.allowRoots input output = .ok ())
    (hplace : fs.locate input = .ok place) (hloc : fs.locateEntry output = .ok loc)
    (hdir : fs.look loc = some .directory) : Apart place loc := by
  apply allowRoots_apart h hplace
  apply locate_of_locateEntry hloc
  simp [hdir]

/-- Clearing takes no file and no directory out of the input. -/
theorem clearOutput_keeps (hallowed : fs.allowRoots input output = .ok ())
    (hplace : fs.locate input = .ok place) (h : fs.clearOutput output = (cleared, .ok ()))
    (hin : place <+: loc) (hitem : fs.look loc = some item)
    (hlink : ∀ target, item ≠ .link target) : cleared.look loc = some item := by
  rcases clearOutput_ok h with ⟨rfl, _⟩ | hfile | ⟨dir, hentry, hdir, hremoved⟩
  · exact hitem
  · obtain ⟨parent, n, hentry, hother, rfl⟩ := removeFile_ok hfile
    rw [look_erase_away ?_, hitem]
    intro hbelow
    obtain ⟨rest, rfl⟩ := hbelow
    -- Below a file or a link there is nothing, and a file that is removed is what was compared.
    by_cases hrest : rest = []
    · subst hrest
      rw [List.append_nil] at hin hitem
      have hloc : fs.locate output = .ok (parent ++ [n]) := by
        apply locate_of_locateEntry hentry
        intro target htarget
        exact hlink target (Option.some.inj (hitem.symm.trans htarget))
      exact (allowRoots_apart hallowed hplace hloc).1 hin
    · rw [look_below hother hrest] at hitem
      cases hitem
  · have haway : ¬ dir <+: loc := (allowRoots_apart_directory hallowed hplace hentry hdir).away hin
    have hemptied : (fs.clear dir).look loc = some item := by
      rw [look_clear_eq, look_edit (.inl haway), hitem]
    rcases hremoved with hremoved | ⟨rfl, _⟩
    · obtain ⟨parent, n, hloc, rfl⟩ := removeDirectory_locate hremoved
      have hthing : fs.PathTo .thing output (.found dir) := by
        have hdirectory := locate_of_locateEntry hentry (by simp [hdir])
        exact (locate_ok_iff.1 hdirectory).2
      have hsame := (part_of_clear fs dir).pathTo (locate_ok_iff.1 hloc).2
      obtain rfl : dir = parent ++ [n] := Target.found.inj (hthing.unique hsame)
      rw [look_erase_away haway, hemptied]
    · exact hemptied

/-! ## What is made -/

theorem GoesBeyond.look_beyond {dir : Location} {way : List Name}
    (h : fs.GoesBeyond p dir way) {front : List Name} (hfront : front <+: way) (hne : front ≠ [])
    (rest : Location) : fs.look (dir ++ front ++ rest) = none := by
  obtain ⟨n, more, rfl, hnone⟩ := h.beyond
  obtain ⟨m, tail, rfl⟩ := List.exists_cons_of_ne_nil hne
  obtain ⟨rfl, _⟩ := List.cons_prefix_cons.1 hfront
  rw [List.append_cons, List.append_assoc]
  by_cases hrest : tail ++ rest = []
  · rw [hrest, List.append_nil, hnone]
  · exact look_below (by rw [hnone]; simp) hrest

theorem GoesBeyond.not_within {dir : Location} {way : List Name} (h : fs.GoesBeyond p dir way)
    (hthere : fs.look loc ≠ none) : ¬ dir ++ way <+: loc := by
  rintro ⟨rest, rfl⟩
  obtain ⟨n, more, hway, _⟩ := h.beyond
  exact hthere (h.look_beyond (List.prefix_refl way) (by simp [hway]) rest)

theorem GoesBeyond.within_iff {dir : Location} {way : List Name} (h : fs.GoesBeyond p dir way)
    (hthere : fs.look loc ≠ none) : loc <+: dir ++ way ↔ loc <+: dir := by
  refine ⟨fun hin => ?_, fun hin => hin.trans (List.prefix_append dir way)⟩
  rcases List.prefix_or_prefix_of_prefix hin (List.prefix_append dir way) with hin' | hout
  · exact hin'
  · obtain ⟨front, rfl⟩ := hout
    by_cases hfront : front = []
    · exact ⟨[], by rw [hfront, List.append_nil, List.append_nil]⟩
    · have hprefix : front <+: way := (List.prefix_append_right_inj dir).1 hin
      have hnone := h.look_beyond hprefix hfront []
      rw [List.append_nil] at hnone
      exact absurd hnone hthere

/-! ## Paths that meet no link -/

/-- The way along these names from the place where the path begins passes no link. -/
def NoLinkOn (fs : FileSystem) (p : Path) (names : List Name) : Prop :=
  ∀ front, front <+: names → ∀ target, fs.look (fs.start p ++ front) ≠ some (.link target)

theorem NoLinkOn.fromRoot {names front : List Name} (h : fs.NoLinkOn p names)
    (hstart : fs.look (fs.start p) = some .directory) (hfront : front <+: fs.start p ++ names)
    (target : Path) : fs.look front ≠ some (.link target) := by
  rcases List.prefix_or_prefix_of_prefix hfront (List.prefix_append _ names) with habove | hbelow
  · obtain ⟨rest, hrest⟩ := habove
    have hdir : fs.look front = some .directory := by
      cases rest with
      | nil => rwa [← hrest, List.append_nil] at hstart
      | cons n rest => exact look_above (hrest ▸ hstart)
    simp [hdir]
  · obtain ⟨rest, rfl⟩ := hbelow
    exact h rest ((List.prefix_append_right_inj _).1 hfront) target

theorem absolute_eq (hp : p.isEmpty = false) (hdepth : fs.depth p = 0) :
    fs.absolute p = .ok ((fs.start p).map .name ++ p.moves) := by
  rw [absolute, hp, hdepth]
  rfl

theorem absolute_names {names : List Name} (hp : p.isEmpty = false) (hdepth : fs.depth p = 0)
    (hnames : p.moves = names.map .name) :
    fs.absolute p = .ok ((fs.start p ++ names).map .name) := by
  rw [absolute_eq hp hdepth, hnames, List.map_append]

theorem locate_rooted {names : List Name} (h : fs.locate (.rooted (names.map .name)) = .ok loc)
    (hlink : ∀ front, front <+: names → ∀ target, fs.look front ≠ some (.link target)) :
    loc = names := by
  obtain ⟨_, k, _, hleads⟩ := locate_ok_iff.1 h
  have habsolute := Path.isAbsolute_rooted (names.map .name)
  have hmoves : (Path.rooted (names.map .name)).segments.filter (!·.isIdle) = names.map .name := by
    cases names with
    | nil => rfl
    | cons n names =>
      show (Segment.blank :: (n :: names).map .name).filter (!·.isIdle) = (n :: names).map .name
      rw [List.filter_cons_of_neg (by simp [Segment.isIdle])]
      apply List.filter_eq_self.2
      intro s hs
      obtain ⟨m, _, rfl⟩ := List.mem_map.1 hs
      rfl
  rw [leads_iff (depth_of_isAbsolute habsolute), start_of_isAbsolute habsolute] at hleads
  have hloc := hleads.straight hmoves (by simpa using hlink)
  rwa [List.nil_append] at hloc

theorem outputPlace_missing {whole : List Segment} {n : Name} (hthere : fs.isThere output = false)
    (habsolute : fs.absolute output = .ok (whole ++ [.name n])) :
    fs.outputPlace output =
      if fs.isThere (.rooted whole) then
        ((fs.canonical (.rooted whole)).mapError (.directoryUnresolved (.rooted whole))).map
          (· ++ [.name n])
      else .ok (whole ++ [.name n]) := by
  rw [outputPlace, hthere, habsolute]
  simp only [mapError_of_ok, bind, Except.bind, Bool.false_eq_true, if_false,
    List.getLast?_concat, List.dropLast_concat]
  split
  · cases fs.canonical (.rooted whole) <;> rfl
  · rfl

theorem outputPlace_above {whole : List Segment} {n : Name} {above : Location}
    (hthere : fs.isThere output = false) (habsolute : fs.absolute output = .ok (whole ++ [.name n]))
    (habove : fs.locate (.rooted whole) = .ok above) (h : fs.outputPlace output = .ok compared) :
    compared = (above ++ [n]).map .name := by
  rw [outputPlace_missing hthere habsolute, if_pos (isThere_iff.2 ⟨_, habove⟩)] at h
  cases hcanonical : fs.canonical (.rooted whole) with
  | error fault =>
    rw [hcanonical] at h
    cases h
  | ok place =>
    obtain ⟨loc, hloc, _, rfl⟩ := canonical_ok hcanonical
    obtain rfl : above = loc := Except.ok.inj (habove.symm.trans hloc)
    rw [hcanonical] at h
    rw [List.map_append]
    exact (Except.ok.inj h).symm

/-- A path on which no link is met is compared as the place to which it leads. -/
theorem outputPlace_straight {names : List Name} (h : fs.outputPlace output = .ok compared)
    (hnames : output.moves = names.map .name) (hlink : fs.NoLinkOn output names)
    (hstart : fs.look (fs.start output) = some .directory) :
    compared = (fs.start output ++ names).map .name := by
  cases hloc : fs.locate output with
  | ok loc =>
    obtain ⟨_, k, _, hleads⟩ := locate_ok_iff.1 hloc
    rw [leads_iff (outputPlace_depth h)] at hleads
    rw [outputPlace_there hloc h, hleads.straight hnames hlink]
  | error fault =>
    have hthere := isThere_of_error hloc
    have habsolute : fs.absolute output = .ok ((fs.start output ++ names).map .name) :=
      absolute_names (outputPlace_nonempty h) (outputPlace_depth h) hnames
    obtain ⟨whole, hwhole⟩ : ∃ whole, whole = fs.start output ++ names := ⟨_, rfl⟩
    rw [← hwhole] at habsolute ⊢
    rcases List.eq_nil_or_concat whole with rfl | ⟨init, n, rfl⟩
    · rw [outputPlace, hthere, habsolute] at h
      cases h
      rfl
    · rw [List.concat_eq_append] at habsolute hwhole ⊢
      rw [List.map_append] at habsolute
      cases habove : fs.locate (.rooted (init.map .name)) with
      | ok above =>
        have hinit : above = init := by
          apply locate_rooted habove
          intro front hfront
          apply hlink.fromRoot hstart
          rw [← hwhole]
          exact hfront.trans (List.prefix_append init [n])
        rw [outputPlace_above hthere habsolute habove h, hinit]
      | error fault =>
        rw [outputPlace_missing hthere habsolute, isThere_of_error habove] at h
        rw [List.map_append]
        exact (Except.ok.inj h).symm

/-- The names of a path that goes beyond what is there are those of its beginning and then these;
if no link is met on the way, they lead from where the path begins. -/
theorem GoesBeyond.straight {dir : Location} {way names : List Name} (h : fs.GoesBeyond p dir way)
    (hnames : p.moves = names.map .name) (hlink : fs.NoLinkOn p names) :
    dir ++ way = fs.start p ++ names := by
  obtain ⟨k, front, rest, hsplit, hleads, hrest⟩ := h.begins
  rw [Path.moves, hsplit, List.filter_append, hrest] at hnames
  obtain ⟨before, behind, rfl, hbefore, hbehind⟩ := List.map_eq_append_iff.1 hnames.symm
  obtain rfl : behind = way := (List.map_inj_right fun _ _ h => Segment.name.inj h).1 hbehind
  have hdir : dir = fs.start p ++ before := by
    apply hleads.straight hbefore.symm
    intro part hpart
    exact hlink part (hpart.trans (List.prefix_append before behind))
  rw [hdir, List.append_assoc]

theorem GoesBeyond.look_start {dir : Location} {way : List Name} (h : fs.GoesBeyond p dir way) :
    fs.look (fs.start p) = some .directory := by
  obtain ⟨k, front, rest, _, hleads, _⟩ := h.begins
  exact hleads.directory_start h.here

theorem GoesBeyond.compared_straight {dir : Location} {way names : List Name} (hpart : Part cleared fs)
    (h : cleared.GoesBeyond output dir way) (hstart : cleared.start output = fs.start output)
    (hcompared : fs.outputPlace output = .ok compared) (hnames : output.moves = names.map .name)
    (hlink : fs.NoLinkOn output names) : compared = (dir ++ way).map .name := by
  have hstraight : dir ++ way = fs.start output ++ names := by
    rw [← hstart]
    apply h.straight hnames
    intro front hfront target htarget
    exact hlink front hfront target (hstart ▸ hpart.look _ _ htarget)
  have hbegin : fs.look (fs.start output) = some .directory := by
    rw [← hstart]
    exact hpart.look _ _ h.look_start
  rw [outputPlace_straight hcompared hnames hlink hbegin, hstraight]

/-! ## Paths to a directory that is there -/

theorem leadsTo_behind_names {names : List Name} {segments : List Segment} {k : Nat}
    (hdir : fs.look names = some .directory)
    (h : LeadsTo fs.look .thing k [] (names.map .name ++ segments) (.found loc)) :
    ∃ j, j ≤ k ∧ LeadsTo fs.look .thing j names segments (.found loc) := by
  have hnames : LeadsTo fs.look .thing 0 [] (names.map .name) (.found names) :=
    leadsTo_names .thing hdir (by simp)
  by_cases hnil : segments = []
  · subst hnil
    rw [List.append_nil] at h
    cases h.unique hnames
    exact ⟨0, Nat.zero_le k, .done⟩
  · obtain ⟨i, j, mid, rfl, hi, hj⟩ := h.split hnil
    cases hi.unique hnames
    exact ⟨j, Nat.le_add_left j i, hj⟩

/-- The path in front of the name of an output that is not there leads to the directory that is
written above it. -/
theorem written_above {whole : List Segment} {n : Name} {above : Location}
    (habsolute : fs.absolute output = .ok (whole ++ [.name n]))
    (hlocate : fs.locate (.rooted whole) = .ok above) (hdir : fs.look above = some .directory)
    (hnone : fs.look (above ++ [n]) = none)
    (hstart : fs.look (fs.start output) = some .directory) :
    ∃ k front blanks, k ≤ linkLimit ∧ output.segments = front ++ .name n :: blanks ∧
      (∀ s ∈ blanks, s.isIdle = true) ∧
      LeadsTo fs.look .thing k (fs.start output) front (.found above) := by
  obtain ⟨_, hwritten⟩ := absolute_ok habsolute
  obtain ⟨_, k, hk, hleads⟩ := locate_ok_iff.1 hlocate
  rw [leads_rooted_iff (look_ancestor hstart List.nil_prefix)] at hleads
  rcases List.eq_nil_or_concat output.moves with hmoves | ⟨moved, last, hmoves⟩
  · -- A path that does not move leads to what is there.
    rw [hmoves, List.append_nil] at hwritten
    obtain ⟨init, names, hbegin, rfl, hname⟩ := List.map_eq_append_iff.1 hwritten.symm
    obtain rfl : names = [n] := (List.map_inj_right fun _ _ h => Segment.name.inj h).1 hname
    have hinit : fs.look ([] ++ init) = some .directory :=
      look_ancestor hstart (hbegin ▸ List.prefix_append init [n])
    cases hleads.unique (leadsTo_names .thing hinit (by simp))
    rw [List.nil_append, ← hbegin, hstart] at hnone
    cases hnone
  · rw [hmoves, List.concat_eq_append, ← List.append_assoc] at hwritten
    obtain ⟨rfl, hlast⟩ := List.append_inj' hwritten rfl
    obtain rfl := List.singleton_inj.1 hlast
    rw [List.concat_eq_append] at hmoves
    obtain ⟨begin, behind, hsplit, hbegin, hbehind⟩ := List.filter_eq_append_iff.1 hmoves
    obtain ⟨idles, blanks, rfl, hidles, _, hblanks⟩ := List.filter_eq_cons_iff.1 hbehind
    have hidles : idles.filter (!·.isIdle) = [] := List.filter_eq_nil_iff.2 (by simpa using hidles)
    obtain ⟨j, hj, hway⟩ := leadsTo_behind_names hstart hleads
    refine ⟨j, begin ++ idles, blanks, Nat.le_trans hj hk, ?_,
      by simpa using List.filter_eq_nil_iff.1 hblanks, ?_⟩
    · rw [hsplit, List.append_assoc]
    · refine hway.of_moves rfl hdir [] (begin ++ idles) ?_
      rw [List.nil_append, List.filter_append, hbegin, hidles, List.append_nil]

theorem prepareOutput_start (h : fs.prepareOutput output = (prepared, .ok ()))
    (hne : output.isEmpty = false) (hpresent : fs.depth output = 0) :
    fs.look (fs.start output) = some .directory := by
  have hsegments : output.segments ≠ [] := List.isEmpty_eq_false_iff.1 hne
  have hbegins : ∀ {ending loc}, fs.PathTo ending output (.found loc) →
      fs.look (fs.start output) = some .directory := by
    intro ending loc hpath
    obtain ⟨k, _, hleads⟩ := hpath
    rw [leads_iff hpresent] at hleads
    exact hleads.directory hsegments
  obtain ⟨cleared, hcleared, hmade⟩ := prepareOutput_cases h
  rcases clearOutput_ok hcleared with ⟨rfl, _⟩ | hfile | ⟨loc, hentry, _⟩
  · rcases makeMissing_start hmade hne hpresent with rfl | hstart
    · obtain ⟨loc, hloc, _⟩ := isDirectory_iff.1 (makeDirectories_isDirectory hmade hne)
      exact hbegins (locate_ok_iff.1 hloc).2
    · exact hstart
  · obtain ⟨parent, n, hentry, _⟩ := removeFile_ok hfile
    exact hbegins (locateEntry_ok_iff.1 hentry).2
  · exact hbegins (locateEntry_ok_iff.1 hentry).2

/-- An output that is not there is made in the directory that is written above it if this is there,
and was compared as this place. -/
theorem prepareOutput_written {whole : List Segment} {n : Name} {above : Location}
    (h : fs.prepareOutput output = (prepared, .ok ()))
    (hcompared : fs.outputPlace output = .ok compared)
    (habsolute : fs.absolute output = .ok (whole ++ [.name n]))
    (hlocate : fs.locate (.rooted whole) = .ok above) (hdir : fs.look above = some .directory)
    (hnone : fs.look (above ++ [n]) = none) :
    compared = (above ++ [n]).map .name ∧ prepared.locate output = .ok (above ++ [n]) := by
  have hpresent := outputPlace_depth hcompared
  have hne := outputPlace_nonempty hcompared
  obtain ⟨cleared, hcleared, hmade⟩ := prepareOutput_cases h
  obtain ⟨root, hroot, _⟩ := isDirectory_iff.1 (makeDirectories_isDirectory hmade hne)
  obtain ⟨hcheck, i, _, hfound⟩ := locate_ok_iff.1 hroot
  obtain ⟨k, front, blanks, hk, hsplit, hblanks, hleads⟩ := written_above habsolute hlocate hdir hnone
    (prepareOutput_start h hne hpresent)
  have hfront : output.isAbsolute = (Path.mk front).isAbsolute := by
    rw [Path.isAbsolute, Path.isAbsolute, hsplit]
    cases front <;> rfl
  have habove : fs.Leads .thing ⟨front⟩ k (.found above) := by
    rw [leads_iff (depth_congr hfront ▸ hpresent), ← start_congr hfront]
    exact hleads
  have hthere : fs.isThere output = false := by
    apply isThere_of_error
    rw [locate, habove.missing hcheck hfront hsplit hk hdir hnone (by simp)]
  obtain rfl : fs = cleared := by
    have hmissing : fs.locateEntry output = .error .missing :=
      habove.missing hcheck hfront hsplit hk hdir hnone (by simp)
    rw [clearOutput, hmissing] at hcleared
    exact congrArg Prod.fst hcleared
  refine ⟨outputPlace_above hthere habsolute hlocate hcompared, ?_⟩
  have hadds := makeDirectories_adds hmade
  rw [leads_iff (hadds.grows.depth output ▸ hpresent), hadds.grows.start, hsplit] at hfound
  obtain ⟨_, j, mid, _, hi, hj⟩ := hfound.split (List.cons_ne_nil _ _)
  cases hi.unique (hadds.grows.kept.leadsTo hleads)
  -- Only directories have been made, so what stands at the name now is one of them.
  rcases hadds.look (above ++ [n]) with hsame | ⟨_, hnew⟩
  · exact absurd (hsame.trans hnone) hj.look_name
  · have hend : LeadsTo prepared.look .thing 0 above (.name n :: blanks) (.found (above ++ [n])) :=
      .enter (hadds.grows.directory hdir) rfl hnew (by simp) (.idles hnew hblanks)
    cases hj.unique hend
    exact hroot

/-! ## What is prepared -/

/-- What is cleared stands apart from the input, and nothing of the input is lost but a link that
is the output itself. What is made for a path that never leads up does not hold the input, and lies
in it exactly if the directory does from which the names of the path go beyond what is there; it
stands apart if no link is met on the path. An output that is not there, in a directory that is, is made
in this directory and stands apart, whether its path leads up or not. -/
theorem prepareOutput_roots (hallowed : fs.allowRoots input output = .ok ())
    (hprepared : fs.prepareOutput output = (prepared, .ok ())) :
    ∃ place root cleared, fs.locate input = .ok place ∧ fs.look place = some .directory ∧
      fs.clearOutput output = (cleared, .ok ()) ∧
      prepared.locate output = .ok root ∧ prepared.look root = some .directory ∧
      (∀ dir, fs.locateEntry output = .ok dir → fs.look dir = some .directory → Apart place dir) ∧
      (∀ loc item, place <+: loc → fs.look loc = some item → (∀ target, item ≠ .link target) →
        prepared.look loc = some item) ∧
      (.up ∉ output.segments → ¬ root <+: place ∧ ∃ dir way, cleared.GoesBeyond output dir way ∧
        root = dir ++ way ∧ (Apart place root ↔ ¬ place <+: dir)) ∧
      (∀ names, output.moves = names.map .name → fs.NoLinkOn output names → Apart place root) ∧
      ∀ whole n above, fs.absolute output = .ok (whole ++ [.name n]) →
        fs.locate (.rooted whole) = .ok above → fs.look above = some .directory →
        fs.look (above ++ [n]) = none → root = above ++ [n] ∧ Apart place root := by
  obtain ⟨place, compared, hplace, hdir, hcompared, hcontains, hinside⟩ :=
    allowRoots_compared hallowed
  obtain ⟨_, _, hnonempty⟩ := allowRoots_ok hallowed
  obtain ⟨cleared, hcleared, hmade⟩ := prepareOutput_cases hprepared
  obtain ⟨root, hroot, hrootdir⟩ := isDirectory_iff.1 (makeDirectories_isDirectory hmade hnonempty)
  have hkept : ∀ loc item, place <+: loc → fs.look loc = some item →
      (∀ target, item ≠ .link target) → cleared.look loc = some item := fun _ _ hin hitem hlink =>
    clearOutput_keeps hallowed hplace hcleared hin hitem hlink
  have hthere : cleared.look place ≠ none := by
    rw [hkept place _ (List.prefix_refl place) hdir (by simp)]
    simp
  have hpart := clearOutput_part hcleared
  -- Without a step up the place of the output is told by the names that go beyond.
  have hnew : .up ∉ output.segments →
      ∃ dir way, cleared.GoesBeyond output dir way ∧ root = dir ++ way := by
    intro hup
    obtain ⟨_, dir, way, hbeyond, hlocate⟩ :=
      makeDirectories_new hmade hnonempty hup (clearOutput_clears hcleared)
    exact ⟨dir, way, hbeyond, Except.ok.inj (hroot.symm.trans hlocate)⟩
  refine ⟨place, root, cleared, hplace, hdir, hcleared, hroot, hrootdir, ?_, ?_, ?_, ?_, ?_⟩
  · intro dir hentry hdirectory
    exact allowRoots_apart_directory hallowed hplace hentry hdirectory
  · intro loc item hin hitem hlink
    have hleft := hkept loc item hin hitem hlink
    rcases (makeDirectories_adds hmade).look loc with hsame | ⟨hnone, _⟩
    · rw [hsame, hleft]
    · rw [hleft] at hnone
      cases hnone
  · intro hup
    obtain ⟨dir, way, hbeyond, rfl⟩ := hnew hup
    have hout : ¬ dir ++ way <+: place := hbeyond.not_within hthere
    refine ⟨hout, dir, way, hbeyond, rfl, ?_⟩
    rw [Apart, hbeyond.within_iff hthere]
    exact and_iff_left hout
  · intro names hnames hlink
    have hup : .up ∉ output.segments := by
      intro hup
      have hmoves : Segment.up ∈ output.moves := List.mem_filter.2 ⟨hup, rfl⟩
      rw [hnames] at hmoves
      simp at hmoves
    obtain ⟨dir, way, hbeyond, rfl⟩ := hnew hup
    have hstart : fs.start output = cleared.start output := by
      obtain ⟨_, _, _, hleads⟩ := locate_ok_iff.1 hroot
      apply hpart.start_eq
      rw [← (makeDirectories_adds hmade).grows.depth]
      exact hleads.depth_eq hup
    rw [hbeyond.compared_straight hpart hstart.symm hcompared hnames hlink] at hcontains hinside
    exact apart_of_written hcontains hinside
  · intro whole n above habsolute hlocate habove hnone
    obtain ⟨rfl, hmade⟩ :=
      prepareOutput_written hprepared hcompared habsolute hlocate habove hnone
    obtain rfl : root = above ++ [n] := Except.ok.inj (hroot.symm.trans hmade)
    exact ⟨rfl, apart_of_written hcontains hinside⟩

def newName : Name := ⟨"new", by decide⟩

/-- The tree for one who works in its output. -/
def workedTree (filled beside : List (Name × Node)) : FileSystem :=
  { smallTree filled beside with workingDirectory := [outName] }

def inputBeside : Path := ⟨[.up, .name inName]⟩
def newBeside : Path := ⟨[.up, .name newName]⟩

/-- A path on which no link is met leads to an output apart from the input, and so does one that leads
up to a directory that is there. -/
theorem straightOutput_apart :
    ((smallTree [(restName, .file [0x62])] []).allowRoots smallInput straightOutput = .ok () ∧
      (smallTree [(restName, .file [0x62])] []).prepareOutput straightOutput =
        (smallTree [] [], .ok ()) ∧
      (smallTree [] []).locate straightOutput = .ok [outName] ∧ Apart [inName] [outName]) ∧
    ((workedTree [] []).allowRoots inputBeside newBeside = .ok () ∧
      (workedTree [] []).prepareOutput newBeside =
        (workedTree [] [(newName, .directory [])], .ok ()) ∧
      (workedTree [] [(newName, .directory [])]).locate newBeside = .ok [newName] ∧
      Apart [inName] [newName]) := by
  refine ⟨?_, ?_⟩
  · have hallowed :
        (smallTree [(restName, .file [0x62])] []).allowRoots smallInput straightOutput = .ok () := rfl
    have hprepared : (smallTree [(restName, .file [0x62])] []).prepareOutput straightOutput =
        (smallTree [] [], .ok ()) := rfl
    refine ⟨hallowed, hprepared, rfl, ?_⟩
    obtain ⟨place, root, _, hplace, _, _, hroot, _, _, _, _, hapart, _⟩ :=
      prepareOutput_roots hallowed hprepared
    obtain rfl : [inName] = place := Except.ok.inj hplace
    obtain rfl : [outName] = root := Except.ok.inj hroot
    refine hapart [outName] rfl fun front hfront target hlink => ?_
    rcases List.prefix_cons_iff.1 hfront with rfl | ⟨rest, rfl, hrest⟩
    · cases hlink
    · obtain rfl := List.prefix_nil.1 hrest
      cases hlink
  · have hallowed : (workedTree [] []).allowRoots inputBeside newBeside = .ok () := rfl
    have hprepared : (workedTree [] []).prepareOutput newBeside =
        (workedTree [] [(newName, .directory [])], .ok ()) := rfl
    refine ⟨hallowed, hprepared, rfl, ?_⟩
    obtain ⟨place, root, _, hplace, _, _, hroot, _, _, _, _, _, hwritten⟩ :=
      prepareOutput_roots hallowed hprepared
    obtain rfl : [inName] = place := Except.ok.inj hplace
    obtain rfl : [newName] = root := Except.ok.inj hroot
    exact (hwritten [.name outName, .up] newName [] rfl rfl rfl rfl).2

def linkName : Name := ⟨"link", by decide⟩

/-- A tree with one file and an empty directory in the input, and these beside it. -/
def enteredTree (beside : List (Name × Node)) : FileSystem :=
  ⟨.directory ((inName, .directory [(noteName, .file [0x61]), (newName, .directory [])]) ::
    (outName, .directory []) :: beside), [], 0⟩

/-- The path into the input through a directory that is not there. -/
def detourInside : Path := ⟨[.name missingName, .up, .name inName, .name newName]⟩

/-- The path into the input through a link, on which two directories are not there. -/
def linkInside : Path := ⟨[.name linkName, .name newName, .name newName]⟩

/-- By each of two paths the output is made in the input. -/
theorem prepareOutput_in_input :
    (smallTree [] []).allowRoots smallInput detourInside = .ok () ∧
    (smallTree [] []).prepareOutput detourInside =
      (enteredTree [(missingName, .directory [])], .ok ()) ∧
    (enteredTree [(missingName, .directory [])]).locate smallInput = .ok [inName] ∧
    (enteredTree [(missingName, .directory [])]).locate detourInside = .ok [inName, newName] ∧
    ((smallTree [] [(linkName, .link smallInput)]).allowRoots smallInput linkInside = .ok () ∧
      ((smallTree [] [(linkName, .link smallInput)]).prepareOutput linkInside).1.locate linkInside =
        .ok [inName, newName, newName]) ∧
    ¬ Apart [inName] [inName, newName] := by
  refine ⟨rfl, rfl, rfl, rfl, ⟨rfl, rfl⟩, ?_⟩
  intro hapart
  exact hapart.1 (List.prefix_append [inName] [newName])

end FileSystem

end Unseal
