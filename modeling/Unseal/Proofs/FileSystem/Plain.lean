import Unseal.Proofs.FileSystem.Named
import Unseal.Proofs.FileSystem.Writing
/-
  Plain trees — operations that cannot fail

  In a tree without links a path of names leads to the place of these names, if
  anything does. So it is seen beforehand which operations succeed: a directory is
  made with all that are missing above it unless a file is in the way or the path
  is too long. A file that is refused in a directory leaves everything as it was.

  What is proved:
    1. `locateEntry_file_above`, `locateEntry_missing` — how looking for an entry
       fails.
    2. `makeDirectories_fills` — the directories on a path are made.
    3. `writeOutput_error` — a file that is not written changes nothing.
-/

namespace Unseal

namespace FileSystem

/-- No link stands anywhere. -/
def NoLinks (fs : FileSystem) : Prop := ∀ loc target, fs.look loc ≠ some (.link target)

variable {fs fs' : FileSystem} {loc : Location} {names above : List Name} {n : Name} {item : Item}

theorem NoLinks.not_link (h : fs.NoLinks) (hitem : fs.look loc = some item) (target : Path) :
    item ≠ .link target := by
  rintro rfl
  exact h loc target hitem

/-- No link stands anywhere, and the directory that is worked in is not removed. -/
structure Plain (fs : FileSystem) : Prop where
  noLinks : fs.NoLinks
  present : fs.removed = 0

theorem Adds.plain (hadds : Adds fs fs') (h : fs.Plain) : fs'.Plain := by
  refine ⟨fun loc target hlink => ?_, hadds.removed.trans h.present⟩
  rcases hadds.look loc with hsame | ⟨_, hdir⟩
  · exact h.noLinks loc target (hsame ▸ hlink)
  · rw [hlink] at hdir
    cases hdir

/-! ## Looking for what is there -/

/-- No file stands on the way along these names, nor at its end. -/
def NoFileOn (fs : FileSystem) (names : List Name) : Prop :=
  ∀ front, front <+: names → ∀ content, fs.look (fs.workingDirectory ++ front) ≠ some (.file content)

theorem NoFileOn.front {rest : List Name} (h : fs.NoFileOn (names ++ rest)) : fs.NoFileOn names :=
  fun front hfront => h front (List.prefix_append_of_prefix hfront)

theorem exists_gap (h : fs.NoLinks) (hfiles : fs.NoFileOn names)
    (hdir : fs.look fs.workingDirectory = some .directory)
    (hnone : fs.look (fs.workingDirectory ++ names) = none) :
    ∃ front n rest, names = front ++ n :: rest ∧
      fs.look (fs.workingDirectory ++ front) = some .directory ∧
      fs.look (fs.workingDirectory ++ front ++ [n]) = none := by
  -- The induction is on the names that are still to be followed, behind those that were.
  suffices hbehind : ∀ rest front, names = front ++ rest →
      fs.look (fs.workingDirectory ++ front) = some .directory → ∃ front n rest,
        names = front ++ n :: rest ∧ fs.look (fs.workingDirectory ++ front) = some .directory ∧
          fs.look (fs.workingDirectory ++ front ++ [n]) = none by
    exact hbehind names [] rfl (by rwa [List.append_nil])
  intro rest
  induction rest with
  | nil =>
    intro front hnames hfront
    rw [hnames, List.append_nil, hfront] at hnone
    cases hnone
  | cons n rest ih =>
    intro front hnames hfront
    cases hitem : fs.look (fs.workingDirectory ++ front ++ [n]) with
    | none => exact ⟨front, n, rest, hnames, hfront, hitem⟩
    | some item =>
      rw [List.append_cons] at hnames
      rw [List.append_assoc] at hitem
      cases item with
      | directory => exact ih (front ++ [n]) hnames hitem
      | file content =>
        exact absurd hitem (hfiles _ (hnames ▸ List.prefix_append (front ++ [n]) rest) content)
      | link target => exact absurd hitem (h _ target)

theorem removed_of_locate (hloc : fs.locate (.ofNames names) = .ok loc) : fs.removed = 0 := by
  obtain ⟨_, k, _, hleads⟩ := locate_ok_iff.1 hloc
  rw [← depth_ofNames names]
  exact hleads.depth_eq (by simp [Path.ofNames])

theorem locate_ofNames (h : fs.NoLinks) (hloc : fs.locate (.ofNames names) = .ok loc) :
    loc = fs.workingDirectory ++ names := by
  obtain ⟨_, k, _, hleads⟩ := locate_ok_iff.1 hloc
  rw [leads_ofNames (removed_of_locate hloc)] at hleads
  exact hleads.straight (Path.moves_ofNames names) fun front _ target => h _ target

section
variable (h : fs.Plain) (hshort : (Path.ofNames names).isTooLong = false) (hne : names ≠ [])
include h hshort hne

theorem locate_of_look (hitem : fs.look (fs.workingDirectory ++ names) = some item) :
    fs.locate (.ofNames names) = .ok (fs.workingDirectory ++ names) :=
  locate_ok_iff.2 ⟨Path.check_ofNames hne hshort,
    pathTo_ofNames h.present hitem (h.noLinks.not_link hitem)⟩

theorem locateEntry_of_look (hitem : fs.look (fs.workingDirectory ++ names) = some item) :
    fs.locateEntry (.ofNames names) = .ok (fs.workingDirectory ++ names) :=
  locateEntry_ok_iff.2 ⟨Path.check_ofNames hne hshort,
    pathTo_ofNames h.present hitem (h.noLinks.not_link hitem)⟩

theorem isDirectory_of_look (hdir : fs.look (fs.workingDirectory ++ names) = some .directory) :
    fs.isDirectory (.ofNames names) = true :=
  isDirectory_iff.2 ⟨_, locate_of_look h hshort hne hdir, hdir⟩

/-- Where nothing stands and no file is in the way, a path is missing. -/
theorem locateEntry_missing (hfiles : fs.NoFileOn names)
    (hdir : fs.look fs.workingDirectory = some .directory)
    (hnone : fs.look (fs.workingDirectory ++ names) = none) :
    fs.locateEntry (.ofNames names) = .error .missing := by
  obtain ⟨front, n, rest, rfl, hfront, hgap⟩ := exists_gap h.noLinks hfiles hdir hnone
  have hcheck := Path.check_ofNames hne hshort
  by_cases hrest : rest = []
  · subst hrest
    have hvacant : fs.resolve .entry (.ofNames (front ++ [n])) =
        .ok (.vacant (fs.workingDirectory ++ front) n) :=
      resolve_ok_iff.2 ⟨hcheck, pathTo_ofNames_vacant h.present hfront hnone⟩
    rw [locateEntry, hvacant]
    rfl
  · rw [locateEntry, resolve_missing h.present hcheck hfront hgap hrest]
    rfl

end

theorem locateEntry_file_above (hpresent : fs.removed = 0) {front rest : List Name} {content : Bytes}
    (hrest : rest ≠ [])
    (hshort : (Path.ofNames (front ++ rest)).isTooLong = false)
    (hfile : fs.look (fs.workingDirectory ++ front) = some (.file content)) :
    fs.locateEntry (.ofNames (front ++ rest)) = .error .notDirectory := by
  have hcheck : (Path.ofNames (front ++ rest)).check = .ok () :=
    Path.check_ofNames (List.append_ne_nil_of_right_ne_nil front hrest) hshort
  rw [locateEntry, resolve_notDirectory hpresent hcheck hfile hrest]
  rfl

/-! ## Refused paths -/

section
variable {p : Path} {fault : FileFault} (hcheck : p.check = .error fault)
include hcheck

theorem locateEntry_of_check : fs.locateEntry p = .error fault := by
  rw [locateEntry, resolve, hcheck]
  rfl

theorem makeDirectories_of_check (fs : FileSystem) (hp : p.segments ≠ []) :
    fs.makeDirectories p = (fs, .error fault) := by
  have hempty : p.isEmpty = false := by
    rw [Path.isEmpty, List.isEmpty_eq_false_iff]
    exact hp
  have hmake : fs.makeDirectory p = .error fault := by
    rw [makeDirectory, hcheck]
    rfl
  have hdir : fs.isDirectory p = false := by
    rw [Bool.eq_false_iff]
    intro hdir
    obtain ⟨loc, hloc, _⟩ := isDirectory_iff.1 hdir
    cases hcheck.symm.trans (locate_ok_iff.1 hloc).1
  have hmissing := Path.check_error hp hcheck
  cases fault with
  | missing => exact absurd rfl hmissing
  | _ => simp only [makeDirectories, makeMissing, hempty, hmake, hdir]; rfl

theorem writeOutput_of_check (fs : FileSystem) (content : Bytes) :
    ∃ fs' cause, fs.writeOutput p content = (fs', .error cause) := by
  obtain ⟨fs', done, hwrite⟩ : ∃ fs' done, fs.writeOutput p content = (fs', done) := ⟨_, _, rfl⟩
  cases done with
  | error cause => exact ⟨fs', cause, hwrite⟩
  | ok _ =>
    obtain ⟨mid, _, hfile, _⟩ := writeOutput_ok hwrite
    rw [writeFile, resolve, hcheck] at hfile
    cases hfile

end

theorem check_of_tooLong {p : Path} (h : p.isTooLong = true) : ∃ fault, p.check = .error fault := by
  cases hcheck : p.check with
  | error fault => exact ⟨fault, rfl⟩
  | ok _ =>
    rw [(Path.check_ok_iff.1 hcheck).2.2] at h
    cases h

/-! ## Making directories -/

theorem makeDirectory_ofNames (hpresent : fs.removed = 0)
    (hshort : (Path.ofNames (above ++ [n])).isTooLong = false)
    (hdir : fs.look (fs.workingDirectory ++ above) = some .directory)
    (hnone : fs.look (fs.workingDirectory ++ (above ++ [n])) = none) :
    ∃ fs', fs.makeDirectory (.ofNames (above ++ [n])) = .ok fs' ∧
      Sets fs fs' (fs.workingDirectory ++ (above ++ [n])) .directory := by
  have hcheck := Path.check_ofNames (List.append_ne_nil_of_right_ne_nil above (by simp)) hshort
  have hresolve : fs.resolve .entry (.ofNames (above ++ [n])) =
      .ok (.vacant (fs.workingDirectory ++ above) n) :=
    resolve_ok_iff.2 ⟨hcheck, pathTo_ofNames_vacant hpresent hdir hnone⟩
  refine ⟨fs.put (fs.workingDirectory ++ above) n (.directory []), ?_, ?_⟩
  · rw [makeDirectory, hcheck, Path.withoutTrailingSlash_of_name (Path.ofNames_append above [n]),
      makeEntry, hresolve]
    rfl
  · rw [← List.append_assoc] at hnone ⊢
    exact put_sets hdir (by rw [hnone]; simp) fun _ => rfl

theorem makeDirectory_missing (h : fs.Plain)
    (hshort : (Path.ofNames (above ++ [n])).isTooLong = false) (hfiles : fs.NoFileOn above)
    (hcwd : fs.look fs.workingDirectory = some .directory)
    (hnone : fs.look (fs.workingDirectory ++ above) = none) :
    fs.makeDirectory (.ofNames (above ++ [n])) = .error .missing := by
  obtain ⟨front, m, rest, hgap, hfront, hvacant⟩ := exists_gap h.noLinks hfiles hcwd hnone
  have hcheck := Path.check_ofNames (List.append_ne_nil_of_right_ne_nil above (by simp)) hshort
  have hname := Path.withoutTrailingSlash_of_name (Path.ofNames_append above [n])
  have hsplit : above ++ [n] = front ++ m :: (rest ++ [n]) := by
    rw [hgap, List.append_assoc, List.cons_append]
  rw [makeDirectory, hcheck, hname, makeEntry]
  rw [hsplit] at hcheck ⊢
  rw [resolve_missing h.present hcheck hfront hvacant (by simp)]
  rfl

/-- Directories have been added on the way down to a place, and it is a directory now. -/
structure Fills (fs fs' : FileSystem) (place : Location) : Prop where
  adds : Adds fs fs'
  here : fs'.look place = some .directory
  along : ∀ loc, fs'.look loc ≠ fs.look loc → loc <+: place

theorem Fills.refl (h : fs.look loc = some .directory) : Fills fs fs loc :=
  ⟨.refl fs, h, fun _ hne => absurd rfl hne⟩

theorem Fills.sets {mid : FileSystem} (h : Fills fs mid loc)
    (hsets : Sets mid fs' (loc ++ [n]) .directory) (hnone : mid.look (loc ++ [n]) = none) :
    Fills fs fs' (loc ++ [n]) := by
  refine ⟨h.adds.trans (hsets.adds hnone), hsets.self, fun place hplace => ?_⟩
  by_cases hself : place = loc ++ [n]
  · subst hself
    exact List.prefix_refl _
  · rw [hsets.other place hself] at hplace
    exact (h.along place hplace).trans (List.prefix_append loc [n])

theorem Fills.look_behind (h : Fills fs fs' loc) (n : Name) :
    fs'.look (loc ++ [n]) = fs.look (loc ++ [n]) := by
  apply Decidable.byContradiction
  intro hne
  have hlength := (h.along _ hne).length_le
  rw [List.length_append, List.length_singleton] at hlength
  omega

theorem makeMissing_fills (h : fs.Plain) (hcwd : fs.look fs.workingDirectory = some .directory)
    {steps : Nat} (hsteps : names.length < steps) (hne : names ≠ [])
    (hshort : (Path.ofNames names).isTooLong = false) (hfiles : fs.NoFileOn names) :
    ∃ fs', fs.makeMissing steps (.ofNames names) = (fs', .ok ()) ∧
      Fills fs fs' (fs.workingDirectory ++ names) := by
  -- What is no link and no file is a directory.
  have hdirectory : ∀ {front item}, front <+: names →
      fs.look (fs.workingDirectory ++ front) = some item → item = .directory := by
    intro front item hfront hitem
    cases item with
    | directory => rfl
    | file content => exact absurd hitem (hfiles front hfront content)
    | link target => exact absurd hitem (h.noLinks _ target)
  induction steps generalizing names with
  | zero => omega
  | succ steps ih =>
    cases hitem : fs.look (fs.workingDirectory ++ names) with
    | some item =>
      obtain rfl := hdirectory (List.prefix_refl names) hitem
      exact ⟨fs, makeMissing_of_isDirectory (isDirectory_of_look h hshort hne hitem) _,
        .refl hitem⟩
    | none =>
      have hempty : (Path.ofNames names).isEmpty = false := by
        simp [Path.isEmpty, Path.ofNames, hne]
      obtain ⟨above, n, rfl⟩ := (List.eq_nil_or_concat names).resolve_left hne
      rw [List.concat_eq_append] at *
      cases habove : fs.look (fs.workingDirectory ++ above) with
      | some item =>
        obtain rfl := hdirectory (List.prefix_append above [n]) habove
        obtain ⟨fs', hmake, hsets⟩ := makeDirectory_ofNames h.present hshort habove hitem
        refine ⟨fs', by simp only [makeMissing, hempty, hmake]; rfl, ?_⟩
        rw [← List.append_assoc] at hsets hitem ⊢
        exact (Fills.refl habove).sets hsets hitem
      | none =>
        have hne' : above ≠ [] := by
          rintro rfl
          rw [List.append_nil, hcwd] at habove
          cases habove
        have hshort' := Path.isTooLong_ofNames_append hne' hshort
        have hmissing := makeDirectory_missing h hshort hfiles.front hcwd habove
        obtain ⟨mid, hmid, hfills⟩ := ih (by simp at hsteps; omega) hne' hshort' hfiles.front
          fun hpre => hdirectory (List.prefix_append_of_prefix hpre)
        have hwd := hfills.adds.workingDirectory
        have hvacant : mid.look (fs.workingDirectory ++ above ++ [n]) = none := by
          rw [hfills.look_behind, List.append_assoc, hitem]
        have hmade := makeDirectory_ofNames (hfills.adds.plain h).present hshort (hwd ▸ hfills.here)
          (by rw [hwd, ← List.append_assoc, hvacant])
        rw [hwd, ← List.append_assoc] at hmade
        obtain ⟨fs', hmake, hsets⟩ := hmade
        refine ⟨fs', ?_, ?_⟩
        · simp only [makeMissing, hempty, hmissing, Path.parent?_ofNames, hmid, hmake]
          rfl
        · rw [← List.append_assoc]
          exact hfills.sets hsets hvacant

/-- A directory is made on a path of names with all directories that are missing above it. -/
theorem makeDirectories_fills (h : fs.Plain)
    (hcwd : fs.look fs.workingDirectory = some .directory) (hne : names ≠ [])
    (hshort : (Path.ofNames names).isTooLong = false) (hfiles : fs.NoFileOn names) :
    ∃ fs', fs.makeDirectories (.ofNames names) = (fs', .ok ()) ∧
      Fills fs fs' (fs.workingDirectory ++ names) := by
  have hlength : (Path.ofNames names).segments.length = names.length := by
    rw [Path.ofNames, List.length_map]
  exact makeMissing_fills h hcwd (by omega) hne hshort hfiles

/-! ## Writing files -/

theorem unwritten_of_error {p : Path} {content : Bytes} {fault : WriteFault}
    (h : (match fs.writeFile p content with
      | .ok written => (written, .ok ())
      | .error cause => (fs, .error (.notWritten p cause))) =
        (fs', (.error fault : Except WriteFault Unit))) : fs' = fs := by
  split at h
  · cases h
  · cases h
    rfl

/-- A writing that fails by a path that leads somewhere and ends in a name leaves everything as it
was. -/
theorem writeOutput_error {p : Path} {t : Target} (hpath : fs.PathTo .thing p t)
    {init : List Segment} (hname : p.segments = init ++ [.name n]) {content : Bytes}
    {fault : WriteFault} (h : fs.writeOutput p content = (fs', .error fault)) : fs' = fs := by
  unfold writeOutput at h
  dsimp only at h
  split at h
  · exact unwritten_of_error h
  · next parent hparent =>
    split at h
    · exact unwritten_of_error h
    · next hempty =>
      have hne : parent.segments ≠ [] := List.isEmpty_eq_false_iff.1 (Bool.not_eq_true _ ▸ hempty)
      -- Either the directory above is there, or its path is refused.
      obtain ⟨done, hmade⟩ : ∃ done, fs.makeDirectories parent = (fs, done) := by
        cases hcheck : parent.check with
        | error cause => exact ⟨_, makeDirectories_of_check hcheck fs hne⟩
        | ok _ =>
          have hout := hpath.leadsOut.parent hname hparent hne
          exact ⟨_, makeDirectories_of_isDirectory (hpath.isDirectory_parent hparent hcheck hout)⟩
      rw [hmade] at h
      cases done with
      | error cause =>
        cases h
        rfl
      | ok _ => exact unwritten_of_error h

end FileSystem

end Unseal
