import Unseal.Run.Files
import Unseal.Proofs.FileSystem.Named
/-
  Writing — files and directories below a directory

  A run makes directories and writes files at paths that go on with names from
  the output. Where the directory above is there already, each of these does one
  thing: it sets the place that the names lead to. The directory above such a
  path is told by the path itself.

  What is proved:
    1. `writeFile_sets`, `writeOutput_grows` — wherever a file is written, one place is
       set to it and nothing is gone.
    2. `makeDirectories_vacant`, `makeDirectories_present`, `writeOutput_below` — what
       is set below a directory.
    3. `makeDirectories_not_file`, `writeOutput_not_directory` — what is not set there.
    4. `makeDirectories_below_isOk`, `writeOutput_below_isOk` — a directory is made and
       a file is written there if its path is taken.
-/

namespace Unseal

namespace FileSystem

variable {fs fs' : FileSystem} {p output : Path} {root : Location} {way : List Name} {n : Name}
  {content : Bytes}

/-! ## Writing a file -/

/-- A file is written where one stands, or at a vacant place. -/
theorem writeFile_sets (h : fs.writeFile p content = .ok fs') :
    ∃ place, Sets fs fs' place (.file content) ∧
      ((fs.PathTo .thing p (.found place) ∧ ∃ old, fs.look place = some (.file old)) ∨
        ∃ parent n, place = parent ++ [n] ∧ fs.PathTo .thing p (.vacant parent n) ∧
          fs.look place = none) := by
  rw [writeFile, bind_ok_iff] at h
  obtain ⟨t, ht, h⟩ := h
  obtain ⟨_, k, hk, segments, hclimb, hleads⟩ := resolve_ok_iff.1 ht
  cases t with
  | vacant parent n =>
    obtain rfl := pure_ok_iff.1 h
    obtain ⟨hdir, hnone⟩ := hleads.vacancy
    refine ⟨parent ++ [n], put_sets hdir (by simp [hnone]) (fun _ => rfl), .inr ?_⟩
    exact ⟨parent, n, rfl, ⟨k, hk, segments, hclimb, hleads.thing_of_file⟩, hnone⟩
  | found loc =>
    dsimp only at h
    split at h
    · next old n hold hlast =>
      obtain rfl := pure_ok_iff.1 h
      obtain ⟨parent, rfl⟩ := List.getLast?_eq_some_iff.1 hlast
      rw [List.dropLast_concat]
      have hdir : fs.look parent = some .directory := look_above hold
      refine ⟨parent ++ [n], put_sets hdir (by simp [hold]) (fun _ => rfl), .inl ?_⟩
      exact ⟨⟨k, hk, segments, hclimb, hleads.thing_of_file⟩, old, hold⟩
    · cases h

theorem writeFile_grows (h : fs.writeFile p content = .ok fs') : Grows fs fs' := by
  obtain ⟨place, hsets, ⟨_, old, hold⟩ | ⟨_, _, _, _, hnone⟩⟩ := writeFile_sets h
  · apply hsets.grows
    intro item hitem
    obtain rfl : Item.file old = item := Option.some.inj (hold.symm.trans hitem)
    trivial
  · apply hsets.grows
    intro item hitem
    rw [hnone] at hitem
    cases hitem

theorem written_of_ok (h : (match fs.writeFile p content with
      | .ok written => (written, .ok ())
      | .error cause => (fs, .error (.notWritten p cause))) =
        (fs', (.ok () : Except WriteFault Unit))) : fs.writeFile p content = .ok fs' := by
  split at h
  · next written hwritten =>
    cases h
    exact hwritten
  · cases h

theorem writeOutput_ok (h : fs.writeOutput p content = (fs', .ok ())) :
    ∃ mid : FileSystem, Adds fs mid ∧ mid.writeFile p content = .ok fs' ∧
      ∀ t, fs.PathTo .thing p t → mid = fs := by
  unfold writeOutput at h
  dsimp only at h
  split at h
  · exact ⟨fs, .refl fs, written_of_ok h, fun _ _ => rfl⟩
  · next parent hparent =>
    split at h
    · exact ⟨fs, .refl fs, written_of_ok h, fun _ _ => rfl⟩
    · next hempty =>
      split at h
      · next mid hmid =>
        refine ⟨mid, makeDirectories_adds hmid, written_of_ok h, fun t hpath => ?_⟩
        -- If the path leads somewhere, its parent is a directory, and none had to be made.
        obtain ⟨loc, hloc, _⟩ :=
          isDirectory_iff.1 (makeDirectories_isDirectory hmid (Bool.not_eq_true _ ▸ hempty))
        obtain ⟨hcheck, hmade⟩ := locate_ok_iff.1 hloc
        have hout : fs.LeadsOut parent := by
          obtain ⟨segments, hclimb⟩ := hmade.leadsOut
          exact ⟨segments, (makeDirectories_adds hmid).grows.depth parent ▸ hclimb⟩
        have hdir := hpath.isDirectory_parent hparent hcheck hout
        rw [makeDirectories_of_isDirectory hdir] at hmid
        exact (Prod.mk.inj hmid).1.symm
      · cases h

theorem writeOutput_grows (h : fs.writeOutput p content = (fs', .ok ())) : Grows fs fs' := by
  obtain ⟨mid, hadds, hwrite, _⟩ := writeOutput_ok h
  exact hadds.grows.trans (writeFile_grows hwrite)

/-! ## Below a directory -/

section
variable (houtput : output.segments ≠ [.blank]) (hroot : fs.PathTo .thing output (.found root))
include houtput hroot

theorem pathTo_found (ending : Ending) (hway : way ≠ []) {item : Item}
    (hitem : fs.look (root ++ way) = some item) (hlink : ∀ target, item ≠ .link target) :
    fs.PathTo ending (output.extend way) (.found (root ++ way)) :=
  hroot.extend houtput (leadsTo_names ending hitem hlink) hway

theorem pathTo_vacant (ending : Ending) (hdir : fs.look (root ++ way) = some .directory)
    (hnone : fs.look (root ++ (way ++ [n])) = none) :
    fs.PathTo ending (output.extend (way ++ [n])) (.vacant (root ++ way) n) := by
  rw [← List.append_assoc] at hnone
  exact hroot.extend houtput (leadsTo_vacant ending hdir hnone) (by simp)

theorem makeDirectory_vacant (hcheck : (output.extend (way ++ [n])).check = .ok ())
    (hdir : fs.look (root ++ way) = some .directory)
    (hnone : fs.look (root ++ (way ++ [n])) = none) :
    fs.makeDirectory (output.extend (way ++ [n])) =
      .ok (fs.put (root ++ way) n (.directory [])) := by
  obtain ⟨init, hinit⟩ := output.segments_extend_concat way n
  have hresolve : fs.resolve .entry (output.extend (way ++ [n])) = .ok (.vacant (root ++ way) n) :=
    resolve_ok_iff.2 ⟨hcheck, pathTo_vacant houtput hroot .entry hdir hnone⟩
  rw [makeDirectory, hcheck, Path.withoutTrailingSlash_of_name hinit, makeEntry, hresolve]
  rfl

theorem makeDirectories_vacant
    (h : fs.makeDirectories (output.extend (way ++ [n])) = (fs', .ok ()))
    (hdir : fs.look (root ++ way) = some .directory)
    (hnone : fs.look (root ++ (way ++ [n])) = none) :
    Sets fs fs' (root ++ (way ++ [n])) .directory := by
  have hempty := output.isEmpty_extend_concat way n
  obtain ⟨loc, hloc, _⟩ := isDirectory_iff.1 (makeDirectories_isDirectory h hempty)
  have hmake := makeDirectory_vacant houtput hroot (locate_ok_iff.1 hloc).1 hdir hnone
  simp only [makeDirectories, makeMissing, hempty, hmake] at h
  have hput : fs' = fs.put (root ++ way) n (.directory []) := (Prod.mk.inj h).1.symm
  rw [hput, ← List.append_assoc]
  rw [← List.append_assoc] at hnone
  exact put_sets hdir (by rw [hnone]; simp) (fun _ => rfl)

theorem makeDirectories_present
    (h : fs.makeDirectories (output.extend (way ++ [n])) = (fs', .ok ()))
    (hdir : fs.look (root ++ (way ++ [n])) = some .directory) : fs' = fs := by
  have hempty := output.isEmpty_extend_concat way n
  obtain ⟨loc, hloc, _⟩ := isDirectory_iff.1 (makeDirectories_isDirectory h hempty)
  have hpath := pathTo_found houtput hroot .thing (by simp) hdir (by simp)
  have hthere : fs.isDirectory (output.extend (way ++ [n])) = true :=
    isDirectory_iff.2 ⟨_, locate_ok_iff.2 ⟨(locate_ok_iff.1 hloc).1, hpath⟩, hdir⟩
  rw [makeDirectories_of_isDirectory hthere] at h
  exact (Prod.mk.inj h).1.symm

theorem makeDirectories_not_file
    (h : fs.makeDirectories (output.extend (way ++ [n])) = (fs', .ok ())) (content : Bytes) :
    fs.look (root ++ (way ++ [n])) ≠ some (.file content) := by
  intro hfile
  have hempty := output.isEmpty_extend_concat way n
  obtain ⟨loc, hloc, hdir⟩ := isDirectory_iff.1 (makeDirectories_isDirectory h hempty)
  have hadds := makeDirectories_adds h
  rcases hadds.look (root ++ (way ++ [n])) with hsame | ⟨hnone, _⟩
  · rw [hfile] at hsame
    have hpath := pathTo_found houtput (hadds.grows.pathTo hroot) .thing (by simp) hsame (by simp)
    cases hpath.unique (locate_ok_iff.1 hloc).2
    cases hsame.symm.trans hdir
  · cases hfile.symm.trans hnone

theorem writeOutput_not_directory
    (h : fs.writeOutput (output.extend (way ++ [n])) content = (fs', .ok ())) :
    fs.look (root ++ (way ++ [n])) ≠ some .directory := by
  intro hdir
  have hpath := pathTo_found houtput hroot .thing (by simp) hdir (by simp)
  obtain ⟨mid, _, hwrite, hmid⟩ := writeOutput_ok h
  obtain rfl := hmid _ hpath
  obtain ⟨place, _, ⟨hfound, old, hold⟩ | ⟨_, _, _, hvacant, _⟩⟩ := writeFile_sets hwrite
  · cases hpath.unique hfound
    cases hdir.symm.trans hold
  · cases hpath.unique hvacant

theorem writeOutput_below (h : fs.writeOutput (output.extend (way ++ [n])) content = (fs', .ok ()))
    (hdir : fs.look (root ++ way) = some .directory)
    (hold : fs.look (root ++ (way ++ [n])) = none ∨
      ∃ old, fs.look (root ++ (way ++ [n])) = some (.file old)) :
    Sets fs fs' (root ++ (way ++ [n])) (.file content) := by
  obtain ⟨mid, _, hwrite, hmid⟩ := writeOutput_ok h
  rcases hold with hnone | ⟨old, hold⟩
  · have hpath := pathTo_vacant houtput hroot .thing hdir hnone
    obtain rfl := hmid _ hpath
    obtain ⟨place, hsets, ⟨hfound, _⟩ | ⟨parent, m, rfl, hvacant, _⟩⟩ := writeFile_sets hwrite
    · cases hpath.unique hfound
    · cases hpath.unique hvacant
      rwa [← List.append_assoc]
  · have hpath := pathTo_found houtput hroot .thing (by simp) hold (by simp)
    obtain rfl := hmid _ hpath
    obtain ⟨place, hsets, ⟨hfound, _⟩ | ⟨parent, m, rfl, hvacant, _⟩⟩ := writeFile_sets hwrite
    · cases hpath.unique hfound
      exact hsets
    · cases hpath.unique hvacant

/-- A directory is made, by a path that is taken, where nothing or a directory stands. -/
theorem makeDirectories_below_isOk (hcheck : (output.extend (way ++ [n])).check = .ok ())
    (hdir : fs.look (root ++ way) = some .directory)
    (hold : fs.look (root ++ (way ++ [n])) = none ∨
      fs.look (root ++ (way ++ [n])) = some .directory) :
    ∃ fs', fs.makeDirectories (output.extend (way ++ [n])) = (fs', .ok ()) := by
  rcases hold with hnone | hold
  · have hempty := output.isEmpty_extend_concat way n
    have hmake := makeDirectory_vacant houtput hroot hcheck hdir hnone
    refine ⟨fs.put (root ++ way) n (.directory []), ?_⟩
    simp only [makeDirectories, makeMissing, hempty, hmake]
    rfl
  · have hpath := pathTo_found houtput hroot .thing (by simp) hold (by simp)
    exact ⟨fs, makeDirectories_of_isDirectory
      (isDirectory_iff.2 ⟨_, locate_ok_iff.2 ⟨hcheck, hpath⟩, hold⟩)⟩

section
variable (hcheck : (output.extend (way ++ [n])).check = .ok ())
  (hdir : fs.look (root ++ way) = some .directory)
  (hold : fs.look (root ++ (way ++ [n])) = none ∨
    ∃ old, fs.look (root ++ (way ++ [n])) = some (.file old))
include hcheck hdir hold

theorem writeFile_below_isOk (content : Bytes) :
    ∃ fs', fs.writeFile (output.extend (way ++ [n])) content = .ok fs' := by
  rcases hold with hnone | ⟨old, hold⟩
  · have hresolve : fs.resolve .file (output.extend (way ++ [n])) = .ok (.vacant (root ++ way) n) :=
      resolve_ok_iff.2 ⟨hcheck, pathTo_vacant houtput hroot .file hdir hnone⟩
    refine ⟨fs.put (root ++ way) n (.file content), ?_⟩
    rw [writeFile, hresolve]
    rfl
  · have hresolve : fs.resolve .file (output.extend (way ++ [n])) =
        .ok (.found (root ++ (way ++ [n]))) :=
      resolve_ok_iff.2 ⟨hcheck, pathTo_found houtput hroot .file (by simp) hold (by simp)⟩
    have hlast : (root ++ (way ++ [n])).getLast? = some n := by
      rw [← List.append_assoc, List.getLast?_concat]
    refine ⟨fs.put (root ++ (way ++ [n])).dropLast n (.file content), ?_⟩
    simp only [writeFile, hresolve, bind, Except.bind, hold, hlast]
    rfl

/-- Any bytes are written, by a path that is taken, where nothing or a file stands. -/
theorem writeOutput_below_isOk (content : Bytes) :
    ∃ fs', fs.writeOutput (output.extend (way ++ [n])) content = (fs', .ok ()) := by
  obtain ⟨fs', hwritten⟩ := writeFile_below_isOk houtput hroot hcheck hdir hold content
  obtain ⟨t, hpath⟩ : ∃ t, fs.PathTo .thing (output.extend (way ++ [n])) t := by
    rcases hold with hnone | ⟨old, hold⟩
    · exact ⟨_, pathTo_vacant houtput hroot .thing hdir hnone⟩
    · exact ⟨_, pathTo_found houtput hroot .thing (by simp) hold (by simp)⟩
  refine ⟨fs', ?_⟩
  unfold writeOutput
  cases hparent : (output.extend (way ++ [n])).parent? with
  | none => simp only [hwritten]
  | some q =>
    cases hempty : q.isEmpty with
    | true => simp only [hempty, if_true, hwritten]
    | false =>
      -- The directory above is there, so nothing has to be made for it.
      have hq : q.segments ≠ [] := List.isEmpty_eq_false_iff.1 hempty
      obtain ⟨init, hinit⟩ := output.segments_extend_concat way n
      have hthere := hpath.isDirectory_parent hparent (Path.check_parent hparent hq hcheck)
        (hpath.leadsOut.parent hinit hparent hq)
      simp only [hempty, makeDirectories_of_isDirectory hthere, hwritten, Bool.false_eq_true,
        if_false]

end

end

end FileSystem

end Unseal
