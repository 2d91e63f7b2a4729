import Unseal.Proofs.FileSystem.Making
/-
  Named paths — relative paths that are made of names

  Such a path leads down from the working directory, and where it leads is told
  by what stands at each place on the way: something at its end, nothing behind a
  directory, or a file where a directory was asked for. Whether it is taken is
  told by its length, and a part of it from its beginning is taken if it is.

  What is proved:
    1. `isTooLong_eq_false_iff`, `isTooLong_of_append` — lengths of paths are sums,
       and the beginning of a path is no longer than the path; so its parent is taken
       if it is (`check_parent`), and so is the path without slashes at its end.
    2. `parent?_ofNames`, `extend_ofNames` — what is above a named path and what
       goes on from it is named too.
    3. `advance_names`, `resolve_notDirectory`, `resolve_missing` — where a path is
       refused.
-/

namespace Unseal

namespace Path

/-! ## Lengths -/

/-- The number of bytes in segments with a slash behind each. -/
def bytesOf : List Segment → Nat
  | [] => 0
  | s :: rest => s.text.utf8ByteSize + 1 + bytesOf rest

theorem bytesOf_append (segments rest : List Segment) :
    bytesOf (segments ++ rest) = bytesOf segments + bytesOf rest := by
  induction segments with
  | nil => exact (Nat.zero_add _).symm
  | cons s segments ih =>
    rw [List.cons_append, bytesOf, bytesOf, ih]
    omega

theorem bytesOf_replicate (k : Nat) (s : Segment) :
    bytesOf (List.replicate k s) = k * (s.text.utf8ByteSize + 1) := by
  induction k with
  | zero => exact (Nat.zero_mul _).symm
  | succ k ih =>
    rw [List.replicate_succ, bytesOf, ih, Nat.succ_mul]
    omega

theorem utf8ByteSize_text {segments : List Segment} (h : segments ≠ []) :
    (Path.mk segments).text.utf8ByteSize + 1 = bytesOf segments := by
  show ("/".intercalate (segments.map Segment.text)).utf8ByteSize + 1 = bytesOf segments
  induction segments with
  | nil => exact absurd rfl h
  | cons s rest ih =>
    cases rest with
    | nil => simp [bytesOf, String.intercalate_singleton]
    | cons s' rest =>
      have hslash : "/".utf8ByteSize = 1 := rfl
      have hrest := ih (List.cons_ne_nil s' rest)
      rw [List.map_cons, List.map_cons, String.intercalate_cons_cons, String.utf8ByteSize_append,
        String.utf8ByteSize_append, ← List.map_cons, hslash, bytesOf]
      omega

theorem isTooLong_eq_false_iff {segments : List Segment} (h : segments ≠ []) :
    (Path.mk segments).isTooLong = false ↔ bytesOf segments ≤ pathLimit + 1 := by
  have hsize := utf8ByteSize_text h
  rw [isTooLong, decide_eq_false_iff_not]
  omega

theorem isTooLong_of_append {segments rest : List Segment} (hne : segments ≠ [])
    (h : (Path.mk (segments ++ rest)).isTooLong = false) :
    (Path.mk segments).isTooLong = false := by
  rw [isTooLong_eq_false_iff (by simp [hne]), bytesOf_append] at h
  rw [isTooLong_eq_false_iff hne]
  omega

theorem isTooLong_rooted_append {names : List Name} {rest : List Segment}
    (h : (Path.rooted (names.map .name ++ rest)).isTooLong = false) :
    (Path.rooted (names.map .name)).isTooLong = false := by
  cases names with
  | nil => rfl
  | cons n more => exact isTooLong_of_append (List.cons_ne_nil Segment.blank _) h

theorem check_parent {p q : Path} (h : p.parent? = some q) (hq : q.segments ≠ [])
    (hp : p.check = .ok ()) : q.check = .ok () := by
  obtain ⟨_, hzero, hshort⟩ := check_ok_iff.1 hp
  refine check_ok_iff.2 ⟨hq, fun s hs => ?_, ?_⟩
  · by_cases hblank : s = .blank
    · rw [hblank]
      rfl
    · exact hzero s (mem_of_mem_parent h hs hblank)
  · obtain ⟨front, idles, last, rest, hsplit, _, _, _, hfront | ⟨_, hroot⟩⟩ := segments_parent h hq
    · obtain ⟨segments⟩ := q
      obtain rfl : segments = front := hfront
      rw [show p = ⟨segments ++ (idles ++ last :: rest)⟩ from congrArg Path.mk hsplit] at hshort
      exact isTooLong_of_append hq hshort
    · rw [show q = ⟨[.blank, .blank]⟩ from congrArg Path.mk hroot]
      decide

theorem check_withoutTrailingSlash {p : Path} (h : p.check = .ok ()) :
    p.withoutTrailingSlash.check = .ok () := by
  obtain ⟨hp, hzero, hshort⟩ := check_ok_iff.1 h
  rcases segments_withoutTrailingSlash hp with ⟨hroot, _⟩ | ⟨blanks, hsplit, _, hne⟩
  · rw [show p.withoutTrailingSlash = ⟨[.blank, .blank]⟩ from congrArg Path.mk hroot]
    rfl
  · refine check_ok_iff.2 ⟨hne, fun s hs => hzero s ?_, ?_⟩
    · rw [hsplit]
      exact List.mem_append_left blanks hs
    · rw [show p = ⟨p.withoutTrailingSlash.segments ++ blanks⟩ from congrArg Path.mk hsplit] at hshort
      exact isTooLong_of_append hne hshort

/-! ## Paths of names -/

/-- The relative path along these names. -/
def ofNames (names : List Name) : Path := ⟨names.map .name⟩

section
variable {names init way : List Name} {n : Name}

theorem check_ofNames (hne : names ≠ []) (hshort : (ofNames names).isTooLong = false) :
    (ofNames names).check = .ok () := by
  refine check_ok_iff.2 ⟨by simp [ofNames, hne], ?_, hshort⟩
  intro s hs
  obtain ⟨m, _, rfl⟩ := List.mem_map.1 hs
  rfl

theorem isAbsolute_ofNames (names : List Name) : (ofNames names).isAbsolute = false := by
  cases names <;> rfl

theorem moves_ofNames (names : List Name) : (ofNames names).moves = names.map .name := by
  apply List.filter_eq_self.2
  intro s hs
  obtain ⟨m, _, rfl⟩ := List.mem_map.1 hs
  rfl

theorem ofNames_append (names rest : List Name) :
    (ofNames (names ++ rest)).segments = names.map .name ++ rest.map .name :=
  List.map_append

theorem getLast?_ofNames (names : List Name) : (ofNames names).segments.getLast? ≠ some .blank := by
  rcases List.eq_nil_or_concat names with rfl | ⟨init, n, rfl⟩
  · simp [ofNames]
  · rw [List.concat_eq_append, ofNames_append]
    simp

theorem ofNames_ne_blank (names : List Name) : (ofNames names).segments ≠ [.blank] := by
  intro hblank
  apply getLast?_ofNames names
  rw [hblank]
  rfl

theorem extend_ofNames (names way : List Name) :
    (ofNames names).extend way = ofNames (names ++ way) := by
  cases way with
  | nil => rw [List.append_nil]; rfl
  | cons n way =>
    have hfront : (ofNames names).front = (ofNames names).segments :=
      if_neg (getLast?_ofNames names)
    have hsegments := segments_extend (ofNames names) (List.cons_ne_nil n way)
    rw [hfront] at hsegments
    exact congrArg Path.mk (hsegments.trans List.map_append.symm)

theorem parent?_ofNames (init : List Name) (n : Name) :
    (ofNames (init ++ [n])).parent? = some (ofNames init) := by
  have hlead : (ofNames (init ++ [n])).lead = [] := by
    cases init <;> rfl
  have hbody : (ofNames (init ++ [n])).body = init.map .name ++ [.name n] := by
    rw [body, hlead, ofNames_append]
    exact dropEndWhile_concat rfl _
  have hdrop : dropEndWhile Segment.isIdle (init.map .name) = init.map .name := by
    rcases List.eq_nil_or_concat init with rfl | ⟨init, m, rfl⟩
    · rfl
    · rw [List.concat_eq_append, List.map_append]
      exact dropEndWhile_concat rfl _
  rw [parent?, hlead, hbody]
  cases hcases : init.map Segment.name ++ [.name n] with
  | nil => simp at hcases
  | cons s rest =>
    show some (Path.mk ([] ++ dropEndWhile Segment.isIdle (s :: rest).dropLast)) = _
    rw [← hcases, List.dropLast_concat, hdrop]
    rfl

theorem isTooLong_ofNames_append (hne : names ≠ [])
    (h : (ofNames (names ++ way)).isTooLong = false) : (ofNames names).isTooLong = false := by
  rw [ofNames, List.map_append] at h
  exact isTooLong_of_append (by simp [hne]) h

end

end Path

namespace FileSystem

variable {fs : FileSystem} {ending : Ending} {p : Path} {loc : Location} {names front rest : List Name}
  {n : Name} {item : Item}

/-! ## Where a path is refused -/

/-- Names of what stands there are followed down to it. -/
theorem advance_names {segments : List Segment} (hitem : fs.look (loc ++ front) = some item)
    (hlink : ∀ target, item ≠ .link target) (hname : ∃ n, .name n ∈ segments) :
    Unseal.advance fs.look ending loc (front.map .name ++ segments) =
      Unseal.advance fs.look ending (loc ++ front) segments := by
  induction front generalizing loc with
  | nil => simp
  | cons n front ih =>
    have hdir : fs.look loc = some .directory := look_above hitem
    have hrest : onlySlashes (front.map .name ++ segments) = false := by
      obtain ⟨m, hm⟩ := hname
      exact LeadsTo.onlySlashes_of_name (List.mem_append_right _ hm)
    rw [List.append_cons] at hitem ⊢
    obtain ⟨next, hnext, hother⟩ : ∃ next, fs.look (loc ++ [n]) = some next ∧
        ∀ target, next ≠ .link target := by
      cases front with
      | nil => exact ⟨item, by simpa using hitem, hlink⟩
      | cons m front => exact ⟨.directory, look_above hitem, by simp⟩
    rw [← ih hitem]
    show Unseal.advance fs.look ending loc (.name n :: (front.map .name ++ segments)) = _
    rw [Unseal.advance, hdir]
    simp only [hrest, hnext, Bool.and_false, Bool.false_eq_true, if_false]

theorem start_ofNames (names : List Name) : fs.start (.ofNames names) = fs.workingDirectory := by
  rw [start, Path.isAbsolute_ofNames]
  rfl

theorem depth_ofNames (names : List Name) : fs.depth (.ofNames names) = fs.removed := by
  rw [depth, Path.isAbsolute_ofNames]
  rfl

section
variable (hpresent : fs.removed = 0)
include hpresent

theorem resolve_refused {fault : FileFault} (hcheck : (Path.ofNames names).check = .ok ())
    (h : Unseal.advance fs.look ending fs.workingDirectory (names.map .name) = .refused fault) :
    fs.resolve ending (.ofNames names) = .error fault := by
  rw [resolve, hcheck, depth_ofNames, hpresent, start_ofNames]
  show follow (fs.advance ending) linkLimit fs.workingDirectory (names.map .name) = _
  rw [advance_eq, follow_eq, h]

theorem resolve_notDirectory {content : Bytes} (hcheck : (Path.ofNames (front ++ rest)).check = .ok ())
    (hfile : fs.look (fs.workingDirectory ++ front) = some (.file content)) (hrest : rest ≠ []) :
    fs.resolve ending (.ofNames (front ++ rest)) = .error .notDirectory := by
  obtain ⟨m, more, rfl⟩ := List.exists_cons_of_ne_nil hrest
  have hname : ∃ k, .name k ∈ (m :: more).map Segment.name := ⟨m, List.mem_cons_self⟩
  apply resolve_refused hpresent hcheck
  rw [List.map_append, advance_names hfile (by simp) hname]
  show Unseal.advance fs.look ending _ (.name m :: more.map .name) = _
  rw [Unseal.advance, hfile]

theorem resolve_missing (hcheck : (Path.ofNames (front ++ n :: rest)).check = .ok ())
    (hdir : fs.look (fs.workingDirectory ++ front) = some .directory)
    (hnone : fs.look (fs.workingDirectory ++ front ++ [n]) = none) (hrest : rest ≠ []) :
    fs.resolve ending (.ofNames (front ++ n :: rest)) = .error .missing := by
  obtain ⟨m, more, rfl⟩ := List.exists_cons_of_ne_nil hrest
  have hname : ∃ k, .name k ∈ (n :: m :: more).map Segment.name := ⟨n, List.mem_cons_self⟩
  have hslash : onlySlashes ((m :: more).map .name) = false :=
    LeadsTo.onlySlashes_of_name List.mem_cons_self
  apply resolve_refused hpresent hcheck
  rw [List.map_append, advance_names hdir (by simp) hname]
  show Unseal.advance fs.look ending _ (.name n :: (m :: more).map .name) = _
  rw [Unseal.advance, hdir]
  simp only [hslash, hnone, Bool.and_false, Bool.false_eq_true, if_false]
  rfl

/-! ## Where a path leads -/

theorem leads_ofNames {k : Nat} {t : Target} : fs.Leads ending (.ofNames names) k t ↔
    LeadsTo fs.look ending k fs.workingDirectory (names.map .name) t := by
  rw [leads_iff ((depth_ofNames names).trans hpresent), start_ofNames]
  rfl

theorem pathTo_ofNames (hitem : fs.look (fs.workingDirectory ++ names) = some item)
    (hlink : ∀ target, item ≠ .link target) :
    fs.PathTo ending (.ofNames names) (.found (fs.workingDirectory ++ names)) :=
  ⟨0, Nat.zero_le _, (leads_ofNames hpresent).2 (leadsTo_names ending hitem hlink)⟩

theorem pathTo_ofNames_vacant (hdir : fs.look (fs.workingDirectory ++ front) = some .directory)
    (hnone : fs.look (fs.workingDirectory ++ (front ++ [n])) = none) :
    fs.PathTo ending (.ofNames (front ++ [n])) (.vacant (fs.workingDirectory ++ front) n) := by
  rw [← List.append_assoc] at hnone
  exact ⟨0, Nat.zero_le _, (leads_ofNames hpresent).2 (leadsTo_vacant ending hdir hnone)⟩

end

end FileSystem

end Unseal
