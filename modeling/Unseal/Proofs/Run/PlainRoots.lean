import Unseal.Proofs.FileSystem.Plain
import Unseal.Proofs.Run.Apart
/-
  Plain roots — when the roots of a run are accepted in a tree without links

  The roots are paths of names here, so each leads to its own place or nowhere. A
  run begins if the input is a directory, neither root lies in the other, and no
  file stands above the output. Every other run is refused before anything is
  changed, and of one that begins the output can be prepared: what is at it is
  taken away, and then it is made with the directories that are missing above it.

  What is proved:
    1. `allowRoots_isOk` — roots are allowed that may be used.
    2. `clearOutput_empties` — what is at the output is taken away, and nothing else.
    3. `prepareOutput_prepares` — the output is made an empty directory, and away
       from it only directories above it are added.
    4. `run_begins` — a run whose roots may not be used is refused and changes
       nothing, and so is one whose output has too long a path.
-/

namespace Unseal

namespace Path

theorem isTooLong_of_rooted {base names : List Name} (hne : names ≠ [])
    (h : (Path.rooted ((base ++ names).map .name)).isTooLong = false) :
    (ofNames names).isTooLong = false := by
  have hmap : names.map Segment.name ≠ [] := by simp [hne]
  have hrooted : Path.rooted ((base ++ names).map .name) =
      ⟨.blank :: base.map .name ++ names.map .name⟩ := by
    rw [List.map_append]
    cases base with
    | nil =>
      obtain ⟨n, rest, rfl⟩ := List.exists_cons_of_ne_nil hne
      rfl
    | cons n base => rfl
  rw [hrooted, isTooLong_eq_false_iff (by simp), bytesOf_append] at h
  rw [ofNames, isTooLong_eq_false_iff hmap]
  omega

end Path

namespace FileSystem

variable {fs cleared prepared : FileSystem} {rules : Rules} {p : Path} {loc root : Location}
  {is os above : List Name} {n : Name}

/-- The roots of a run may be used: the directory that is worked in is not removed, the input is a
directory, neither root is the other or lies in it, and no file stands above the output. -/
structure RootsUsable (fs : FileSystem) (is os : List Name) : Prop where
  present : fs.removed = 0
  input : fs.look (fs.workingDirectory ++ is) = some .directory
  apart : Apart is os
  above : ∀ front, front <+: os → front ≠ os →
    ∀ content, fs.look (fs.workingDirectory ++ front) ≠ some (.file content)

/-- The places of the roots, written from the root of the file system, are not too long. -/
structure RootsFit (fs : FileSystem) (is os : List Name) : Prop where
  input : (Path.rooted ((fs.workingDirectory ++ is).map .name)).isTooLong = false
  output : (Path.rooted ((fs.workingDirectory ++ os).map .name)).isTooLong = false

/-! ## Comparing -/

theorem outputPlace_names (h : fs.NoLinks) (hcwd : fs.look fs.workingDirectory = some .directory)
    {compared : List Segment} (hcompared : fs.outputPlace (.ofNames os) = .ok compared) :
    compared = (fs.workingDirectory ++ os).map .name := by
  rw [← start_ofNames os] at hcwd ⊢
  exact outputPlace_straight hcompared (Path.moves_ofNames os) (fun _ _ target => h _ target) hcwd

theorem canonical_rooted (h : fs.NoLinks) {names : List Name}
    (hfit : (Path.rooted (names.map .name)).isTooLong = false)
    (hloc : fs.locate (.rooted (names.map .name)) = .ok loc) :
    fs.canonical (.rooted (names.map .name)) = .ok (names.map .name) := by
  obtain rfl := locate_rooted hloc fun _ _ target => h _ target
  have habsolute := Path.isAbsolute_rooted (loc.map .name)
  have hdepth : fs.depth _ = 0 := depth_of_isAbsolute habsolute
  obtain ⟨item, hitem⟩ := Option.ne_none_iff_exists'.1 (look_of_locate hloc hdepth)
  have hshort : LeadsTo fs.lookShort .thing 0 [] (loc.map .name) (.found loc) :=
    leadsTo_short hfit hitem (h.not_link hitem)
  have hroot : fs.lookShort [] = some .directory := by
    obtain ⟨_, k, _, hleads⟩ := locate_ok_iff.1 hloc
    rw [lookShort_above hfit List.nil_prefix]
    rw [leads_iff hdepth, start_of_isAbsolute habsolute] at hleads
    refine hleads.directory ?_
    cases loc <;> simp [Path.rooted]
  refine canonical_isOk hloc hdepth (Nat.zero_le _) ?_
  rw [start_of_isAbsolute habsolute]
  cases loc with
  | nil => exact .idles hroot (by simp [Path.rooted, Segment.isIdle])
  | cons n names => exact .idle hroot rfl hshort

theorem canonical_ofNames (h : fs.NoLinks) {names : List Name}
    (hfit : (Path.rooted ((fs.workingDirectory ++ names).map .name)).isTooLong = false)
    (hloc : fs.locate (.ofNames names) = .ok loc) :
    fs.canonical (.ofNames names) = .ok ((fs.workingDirectory ++ names).map .name) := by
  have hdepth := (depth_ofNames names).trans (removed_of_locate hloc)
  obtain rfl := locate_ofNames h hloc
  obtain ⟨item, hitem⟩ := Option.ne_none_iff_exists'.1 (look_of_locate hloc hdepth)
  refine canonical_isOk hloc hdepth (Nat.zero_le _) ?_
  rw [start_ofNames]
  exact leadsTo_short hfit hitem (h.not_link hitem)

theorem outputPlace_ofNames (h : fs.Plain)
    (hcwd : fs.look fs.workingDirectory = some .directory) (hos : os ≠ [])
    (hfit : (Path.rooted ((fs.workingDirectory ++ os).map .name)).isTooLong = false) :
    fs.outputPlace (.ofNames os) = .ok ((fs.workingDirectory ++ os).map .name) := by
  have hempty : (Path.ofNames os).isEmpty = false := by
    simp [Path.isEmpty, Path.ofNames, hos]
  have hstart : fs.start (.ofNames os) = fs.workingDirectory := start_ofNames os
  suffices hcompared : ∃ compared, fs.outputPlace (.ofNames os) = .ok compared by
    obtain ⟨compared, hcompared⟩ := hcompared
    rw [hcompared, outputPlace_names h.noLinks hcwd hcompared]
  cases hloc : fs.locate (.ofNames os) with
  | ok loc =>
    rw [outputPlace, if_pos (isThere_iff.2 ⟨_, hloc⟩), canonical_ofNames h.noLinks hfit hloc]
    exact ⟨_, rfl⟩
  | error fault =>
    have hthere := isThere_of_error hloc
    have habsolute : fs.absolute (.ofNames os) = .ok ((fs.start (.ofNames os) ++ os).map .name) :=
      absolute_names hempty ((depth_ofNames os).trans h.present) (Path.moves_ofNames os)
    obtain ⟨above, n, rfl⟩ := (List.eq_nil_or_concat os).resolve_left hos
    rw [hstart, List.concat_eq_append, ← List.append_assoc, List.map_append] at habsolute
    rw [List.concat_eq_append, ← List.append_assoc, List.map_append] at hfit
    rw [List.concat_eq_append] at hthere ⊢
    rw [outputPlace_missing hthere habsolute]
    split
    · next habove =>
      obtain ⟨loc, hloc⟩ := isThere_iff.1 habove
      rw [canonical_rooted h.noLinks (Path.isTooLong_rooted_append hfit) hloc]
      exact ⟨_, rfl⟩
    · exact ⟨_, rfl⟩

/-- Roots are allowed that may be used. -/
theorem allowRoots_isOk (h : fs.NoLinks) (his : is ≠ []) (hos : os ≠ [])
    (husable : fs.RootsUsable is os) (hfit : fs.RootsFit is os) :
    fs.allowRoots (.ofNames is) (.ofNames os) = .ok () := by
  have hplain : fs.Plain := ⟨h, husable.present⟩
  have hshort := Path.isTooLong_of_rooted his hfit.input
  have hplace := locate_of_look hplain hshort his husable.input
  have hcwd := look_ancestor husable.input (List.prefix_append _ is)
  have hapart : Apart (fs.workingDirectory ++ is) (fs.workingDirectory ++ os) := by
    rw [Apart, List.prefix_append_right_inj, List.prefix_append_right_inj]
    exact husable.apart
  exact allowRoots_of_apart hplace husable.input (canonical_ofNames h hfit.input hplace)
    (outputPlace_ofNames hplain hcwd hos hfit.output) hapart

/-! ## Clearing -/

/-- What was at a place is gone, with all below it, and away from it nothing has changed. -/
structure Empties (fs cleared : FileSystem) (place : Location) : Prop where
  part : Part cleared fs
  stays : ¬ place <+: fs.workingDirectory →
    cleared.workingDirectory = fs.workingDirectory ∧ cleared.removed = fs.removed
  away : ∀ loc, ¬ place <+: loc → cleared.look loc = fs.look loc
  gone : cleared.look place = none

theorem empties_erase (fs : FileSystem) (loc : Location) (n : Name) :
    Empties fs (fs.erase loc n) (loc ++ [n]) :=
  ⟨part_of_erase fs loc n, erase_stays fs, fun _ haway => look_erase_away haway fs, look_erase fs loc n⟩

theorem names_clear (hdir : fs.look loc = some .directory) : (fs.clear loc).names loc = [] := by
  obtain ⟨entries, hentries⟩ := look_directory_iff.1 hdir
  have hcleared : (fs.clear loc).root.at? loc = some (.directory []) := by
    have hempty := Node.at?_edit_append hentries (f := fun _ => []) []
    rwa [List.append_nil, ← root_clear] at hempty
  rw [names, hcleared]
  rfl

theorem locate_around (hpresent : fs.removed = 0)
    (hshort : (Path.ofNames (above ++ [n])).isTooLong = false)
    (hdir : fs.look (fs.workingDirectory ++ above) = some .directory) :
    fs.locate ⟨above.map .name ++ [.here]⟩ = .ok (fs.workingDirectory ++ above) := by
  have hname : n.text.utf8ByteSize ≠ 0 := by
    intro hzero
    have hisName := n.isName
    rw [String.utf8ByteSize_eq_zero_iff.1 hzero] at hisName
    cases hisName
  have hfits : (Path.mk (above.map .name ++ [.here])).isTooLong = false := by
    rw [Path.ofNames, List.map_append, Path.isTooLong_eq_false_iff (by simp),
      Path.bytesOf_append] at hshort
    rw [Path.isTooLong_eq_false_iff (by simp), Path.bytesOf_append]
    have hdot : Path.bytesOf [.here] = 2 := rfl
    have hlast : Path.bytesOf ([n].map .name) = n.text.utf8ByteSize + 1 := rfl
    omega
  have habsolute := isAbsolute_last (above.map .name) .here (by simp)
  have hdepth : fs.depth ⟨above.map .name ++ [.here]⟩ = 0 :=
    (depth_congr habsolute).trans ((depth_ofNames above).trans hpresent)
  refine locate_ok_iff.2 ⟨Path.check_ok_iff.2 ⟨by simp, ?_, hfits⟩, 0, Nat.zero_le _, ?_⟩
  · intro s hs
    rcases List.mem_append.1 hs with hs | hs
    · obtain ⟨m, _, rfl⟩ := List.mem_map.1 hs
      rfl
    · rw [List.mem_singleton.1 hs]
      rfl
  · rw [leads_iff hdepth, start_congr habsolute]
    show LeadsTo _ _ _ (fs.start (.ofNames above)) _ _
    rw [start_ofNames]
    exact (leadsTo_names .thing hdir (by simp)).append (.idle hdir rfl .done) (.inl rfl)

theorem removeDirectory_isOk (hpresent : fs.removed = 0)
    (hshort : (Path.ofNames (above ++ [n])).isTooLong = false)
    (hdir : fs.look (fs.workingDirectory ++ above ++ [n]) = some .directory)
    (hempty : fs.names (fs.workingDirectory ++ above ++ [n]) = []) :
    fs.removeDirectory (.ofNames (above ++ [n])) = .ok (fs.erase (fs.workingDirectory ++ above) n) := by
  have hcheck : (Path.ofNames (above ++ [n])).check = .ok () :=
    Path.check_ofNames (by simp) hshort
  have hsegments := Path.ofNames_append above [n]
  have hwhole := Path.withoutTrailingSlash_of_name hsegments
  have hparent := locate_around hpresent hshort (look_above hdir)
  rw [removeDirectory, hcheck, hwhole, hsegments]
  simp only [bind, Except.bind, List.map_cons, List.map_nil, List.dropLast_concat,
    List.getLast?_concat, Option.some.injEq, reduceCtorEq, if_false, hparent, hdir, hempty]
  rfl

theorem Part.noLinks (hpart : Part cleared fs) (h : fs.NoLinks) : cleared.NoLinks :=
  fun loc target hlink => h loc target (hpart.look loc _ hlink)

theorem removeTree_empties (h : fs.Plain)
    (hshort : (Path.ofNames (above ++ [n])).isTooLong = false)
    (hdir : fs.look (fs.workingDirectory ++ above ++ [n]) = some .directory) :
    ∃ cleared, fs.removeTree (.ofNames (above ++ [n])) = (cleared, .ok ()) ∧
      Empties fs cleared (fs.workingDirectory ++ above ++ [n]) := by
  have hentry : fs.locateEntry (.ofNames (above ++ [n])) =
      .ok (fs.workingDirectory ++ above ++ [n]) := by
    rw [List.append_assoc] at hdir ⊢
    exact locateEntry_of_look h hshort (by simp) hdir
  obtain ⟨place, hplace⟩ : ∃ place, place = fs.workingDirectory ++ above ++ [n] := ⟨_, rfl⟩
  have hemptied : (fs.clear place).look place = some .directory := by
    rw [look_clear_eq, look_edit (.inr rfl), hplace, hdir]
  have hbelow : ¬ place <+: fs.workingDirectory := by
    intro hprefix
    have hlength := hprefix.length_le
    simp only [hplace, List.length_append, List.length_singleton] at hlength
    omega
  obtain ⟨hwd, hstays⟩ := clear_stays fs hbelow
  have hremoved : (fs.clear place).removeDirectory (.ofNames (above ++ [n])) =
      .ok ((fs.clear place).erase (fs.workingDirectory ++ above) n) := by
    have hnames : (fs.clear place).names place = [] := names_clear (hplace ▸ hdir)
    have hsame : (fs.clear place).workingDirectory ++ above ++ [n] = place := by rw [hwd, ← hplace]
    rw [← hwd]
    exact removeDirectory_isOk (hstays.trans h.present) hshort (by rwa [hsame]) (by rwa [hsame])
  have herased := empties_erase (fs.clear place) (fs.workingDirectory ++ above) n
  rw [← hplace] at hentry hdir herased ⊢
  refine ⟨(fs.clear place).erase (fs.workingDirectory ++ above) n, ?_,
    herased.part.trans (part_of_clear fs place), fun _ => ?_, fun loc haway => ?_, herased.gone⟩
  · simp only [removeTree, hentry, hdir, hremoved]
  · obtain ⟨hwd', hstays'⟩ := herased.stays (hwd ▸ hbelow)
    exact ⟨hwd'.trans hwd, hstays'.trans hstays⟩
  · rw [herased.away loc haway, look_clear_eq, look_edit (.inl haway)]

theorem clearOutput_empties (h : fs.Plain) (hcwd : fs.look fs.workingDirectory = some .directory)
    (hos : os ≠ []) (hshort : (Path.ofNames os).isTooLong = false)
    (habove : ∀ front, front <+: os → front ≠ os →
      ∀ content, fs.look (fs.workingDirectory ++ front) ≠ some (.file content)) :
    ∃ cleared, fs.clearOutput (.ofNames os) = (cleared, .ok ()) ∧
      Empties fs cleared (fs.workingDirectory ++ os) := by
  cases hitem : fs.look (fs.workingDirectory ++ os) with
  | none =>
    have hfiles : fs.NoFileOn os := by
      intro front hfront content hfile
      by_cases hself : front = os
      · rw [hself, hitem] at hfile
        cases hfile
      · exact habove front hfront hself content hfile
    have hmissing := locateEntry_missing h hshort hos hfiles hcwd hitem
    exact ⟨fs, by rw [clearOutput, hmissing], .refl fs, fun _ => ⟨rfl, rfl⟩, fun _ _ => rfl, hitem⟩
  | some item =>
    have hentry := locateEntry_of_look h hshort hos hitem
    obtain ⟨above, n, rfl⟩ := (List.eq_nil_or_concat os).resolve_left hos
    rw [List.concat_eq_append, ← List.append_assoc] at *
    cases item with
    | link target => exact absurd hitem (h.noLinks _ target)
    | file content =>
      have hremoved : fs.removeFile (.ofNames (above ++ [n])) =
          .ok (fs.erase (fs.workingDirectory ++ above) n) := by
        simp only [removeFile, hentry, bind, Except.bind, hitem, List.getLast?_concat,
          List.dropLast_concat]
        rfl
      exact ⟨_, by simp only [clearOutput, hentry, hitem, hremoved], empties_erase fs _ n⟩
    | directory =>
      obtain ⟨cleared, hremoved, hempties⟩ := removeTree_empties h hshort hitem
      exact ⟨cleared, by simp only [clearOutput, hentry, hitem, hremoved]; rfl, hempties⟩

/-! ## Preparing -/

/-- A place has become an empty directory, and away from it only directories have been added that
were missing above it. -/
structure Prepares (fs prepared : FileSystem) (root : Location) : Prop where
  workingDirectory : prepared.workingDirectory = fs.workingDirectory
  plain : prepared.Plain
  here : prepared.look root = some .directory
  empty : ∀ rest, rest ≠ [] → prepared.look (root ++ rest) = none
  outside : ∀ loc, ¬ root <+: loc → prepared.look loc = fs.look loc ∨
    (fs.look loc = none ∧ prepared.look loc = some .directory ∧ loc <+: root)

theorem prepareOutput_prepares (h : fs.Plain)
    (hcwd : fs.look fs.workingDirectory = some .directory) (hos : os ≠ [])
    (hshort : (Path.ofNames os).isTooLong = false)
    (habove : ∀ front, front <+: os → front ≠ os →
      ∀ content, fs.look (fs.workingDirectory ++ front) ≠ some (.file content)) :
    ∃ prepared, fs.prepareOutput (.ofNames os) = (prepared, .ok ()) ∧
      Prepares fs prepared (fs.workingDirectory ++ os) := by
  obtain ⟨cleared, hcleared, hempties⟩ := clearOutput_empties h hcwd hos hshort habove
  have hbelow : ¬ fs.workingDirectory ++ os <+: fs.workingDirectory := by
    intro hprefix
    have hlength := hprefix.length_le
    rw [List.length_append] at hlength
    exact hos (List.length_eq_zero_iff.1 (by omega))
  obtain ⟨hwd, hstays⟩ := hempties.stays hbelow
  have hplain : cleared.Plain := ⟨hempties.part.noLinks h.noLinks, hstays.trans h.present⟩
  have hcwd' : cleared.look cleared.workingDirectory = some .directory := by
    rw [hwd, hempties.away _ hbelow, hcwd]
  have hfiles : cleared.NoFileOn os := by
    intro front hfront content hfile
    rw [hwd] at hfile
    by_cases hself : front = os
    · rw [hself, hempties.gone] at hfile
      cases hfile
    · exact habove front hfront hself content (hempties.part.look _ _ hfile)
  obtain ⟨prepared, hmade, hfills⟩ := makeDirectories_fills hplain hcwd' hos hshort hfiles
  rw [hwd] at hfills
  refine ⟨prepared, by simp only [prepareOutput, hcleared, hmade]; rfl,
    hfills.adds.workingDirectory.trans hwd, hfills.adds.plain hplain, hfills.here, ?_, ?_⟩
  · intro rest hrest
    have hnone : cleared.look (fs.workingDirectory ++ os ++ rest) = none :=
      look_below (by rw [hempties.gone]; simp) hrest
    apply Decidable.byContradiction
    intro hsome
    have hlength := (hfills.along _ (by rwa [hnone])).length_le
    rw [List.length_append] at hlength
    exact hrest (List.length_eq_zero_iff.1 (by omega))
  · intro loc haway
    rw [← hempties.away loc haway]
    by_cases hsame : prepared.look loc = cleared.look loc
    · exact .inl hsame
    · rcases hfills.adds.look loc with hsame' | ⟨hnone, hdir⟩
      · exact absurd hsame' hsame
      · exact .inr ⟨hnone, hdir, hfills.along loc hsame⟩

/-! ## Refusing -/

theorem allowRoots_names (h : fs.NoLinks)
    (hallowed : fs.allowRoots (.ofNames is) (.ofNames os) = .ok ()) :
    fs.removed = 0 ∧ fs.look (fs.workingDirectory ++ is) = some .directory ∧ Apart is os := by
  obtain ⟨place, compared, hplace, hdir, hcompared, hcontains, hinside⟩ :=
    allowRoots_compared hallowed
  have hpresent := removed_of_locate hplace
  obtain rfl := locate_ofNames h hplace
  obtain rfl := outputPlace_names h (look_ancestor hdir (List.prefix_append _ is)) hcompared
  rw [prefix_map_name_iff, List.prefix_append_right_inj] at hcontains hinside
  exact ⟨hpresent, hdir, hinside, hcontains⟩

theorem prepareOutput_refused (hpresent : fs.removed = 0) (hos : os ≠ [])
    (hrefused : (Path.ofNames os).isTooLong = true ∨
      ∃ front rest content, os = front ++ rest ∧ rest ≠ [] ∧
        fs.look (fs.workingDirectory ++ front) = some (.file content)) :
    ∃ fault, fs.prepareOutput (.ofNames os) = (fs, .error fault) := by
  obtain ⟨cause, hentry, hpresent⟩ : ∃ cause, fs.locateEntry (.ofNames os) = .error cause ∧
      cause ≠ .missing := by
    cases hlong : (Path.ofNames os).isTooLong with
    | true =>
      obtain ⟨cause, hcheck⟩ := check_of_tooLong hlong
      have hne : (Path.ofNames os).segments ≠ [] := by simpa [Path.ofNames] using hos
      exact ⟨cause, locateEntry_of_check hcheck, Path.check_error hne hcheck⟩
    | false =>
      rw [hlong] at hrefused
      obtain ⟨front, rest, content, rfl, hrest, hfile⟩ := hrefused.resolve_left (by simp)
      exact ⟨.notDirectory, locateEntry_file_above hpresent hrest hlong hfile, by simp⟩
  refine ⟨.outputUninspected (.ofNames os) cause, ?_⟩
  cases cause with
  | missing => exact absurd rfl hpresent
  | _ => simp only [prepareOutput, clearOutput, hentry]

/-- A run in a tree without links is refused, with everything as it was, or its roots may be used
and the output is prepared. -/
theorem run_begins (rules : Rules) (h : fs.NoLinks) (hos : os ≠ []) :
    (∃ events fault, fs.run rules (.ofNames is) (.ofNames os) = ⟨fs, events, .error fault⟩) ∨
      (fs.RootsUsable is os ∧ fs.allowRoots (.ofNames is) (.ofNames os) = .ok () ∧
        ∃ prepared, fs.prepareOutput (.ofNames os) = (prepared, .ok ()) ∧
          Prepares fs prepared (fs.workingDirectory ++ os)) := by
  cases hallowed : fs.allowRoots (.ofNames is) (.ofNames os) with
  | error fault => exact .inl ⟨[], fault, by rw [run, hallowed]⟩
  | ok _ =>
    obtain ⟨hpresent, hdir, hapart⟩ := allowRoots_names h hallowed
    by_cases hrefused : (Path.ofNames os).isTooLong = true ∨
        ∃ front rest content, os = front ++ rest ∧ rest ≠ [] ∧
          fs.look (fs.workingDirectory ++ front) = some (.file content)
    · obtain ⟨fault, hprepared⟩ := prepareOutput_refused hpresent hos hrefused
      exact .inl ⟨[], fault, by rw [run, hallowed, hprepared]⟩
    · obtain ⟨hshort, hnone⟩ := not_or.1 hrefused
      have habove : ∀ front, front <+: os → front ≠ os →
          ∀ content, fs.look (fs.workingDirectory ++ front) ≠ some (.file content) := by
        rintro front ⟨rest, rfl⟩ hne content hfile
        refine hnone ⟨front, rest, content, rfl, ?_, hfile⟩
        rintro rfl
        exact hne (List.append_nil front).symm
      have hcwd := look_ancestor hdir (List.prefix_append _ is)
      have hprepared := prepareOutput_prepares ⟨h, hpresent⟩ hcwd hos (by simpa using hshort)
        habove
      exact .inr ⟨⟨hpresent, hdir, hapart, habove⟩, rfl, hprepared⟩

end FileSystem

end Unseal
