import Unseal.Proofs.PlainWalk
import Unseal.Proofs.Discovery.Below
/-
  Where a walk stands — what holds in every directory that is walked

  A walk is driven by a supply of steps, one for each directory that it is inside
  of. Between two links it goes down the tree, no further than the tree is high,
  and its path goes through forty links at most, so the supply is never used up.
  This and the way that it has come is kept from one directory to the next
  (`Stands`), and from it follows what happens at each name.

  What is proved:
    1. `enter_error` — all that can go wrong at a name.
    2. `Stands.length_lt` — a walk is inside of fewer directories than it may be.
    3. `Stands.obstacle`, `Stands.no_obstacle` — a name is refused exactly at an
       obstacle.
    4. `Stands.enter_none`, `Stands.enter_some` — what is passed by is a file, and in
       a directory that is entered the walk stands as before.
-/

namespace Unseal.FileSystem

variable {fs : FileSystem} {root : Path} {place loc next : Location} {way : List Name} {n : Name}
  {here visit : Visit} {inside : List Visit}

/-! ## Entering -/

/-- All that can go wrong at a name under which something stands. -/
theorem enter_error {fault : WalkFault} (h : fs.enter here inside n = .error fault)
    (hthere : fs.look (here.location ++ [n]) ≠ none) :
    (fs.look (here.location ++ [n]) = some .directory ∧ (here.path.join n).isTooLong = true) ∨
    ∃ target, fs.look (here.location ++ [n]) = some (.link target) ∧
      ((∀ next, fs.locate (here.path.join n) ≠ .ok next) ∨
        ∃ next, fs.locate (here.path.join n) = .ok next ∧ fs.look next = some .directory ∧
          next ∈ (here :: inside).map (·.location)) := by
  unfold enter at h
  dsimp only at h
  split at h
  · next hnone => exact absurd hnone hthere
  · cases h
  · next hdir =>
    split at h
    · next hlong => exact .inl ⟨hdir, hlong⟩
    · cases h
  · next target hlink =>
    refine .inr ⟨target, hlink, ?_⟩
    split at h
    · next cause hcause =>
      refine .inl fun next hnext => ?_
      rw [hcause] at hnext
      cases hnext
    · next next hlocate =>
      split at h
      · next hdir =>
        split at h
        · next around haround =>
          have hlocation := List.find?_some haround
          refine .inr ⟨next, hlocate, hdir, ?_⟩
          exact List.mem_map.2 ⟨around, List.mem_of_find?_eq_some haround, by simpa using hlocation⟩
        · cases h
      · cases h

/-! ## Where a walk stands -/

theorem length_lt_height (hdir : fs.look loc = some .directory) : loc.length < fs.root.height := by
  obtain ⟨entries, hentries⟩ := look_directory_iff.1 hdir
  have hheight : loc.length + (Node.heightOf entries + 1) ≤ fs.root.height :=
    Node.length_add_height_le hentries
  omega

/-- A walk stands in a directory, to which its path leads, inside of the directories around it.
Each link on the path leads into a new part of the tree, and each other step goes further down. -/
structure Stands (fs : FileSystem) (root : Path) (place : Location) (here : Visit)
    (inside : List Visit) (way : List Name) : Prop where
  within : fs.Within place way here.location (inside.map (·.location))
  path : here.path = root.extend way
  located : fs.locate here.path = .ok here.location
  isDirectory : fs.look here.location = some .directory
  depth : ∀ k, fs.Passes here.path k here.location →
    inside.length ≤ k * fs.root.height + here.location.length

namespace Stands

theorem start (hplace : fs.locate root = .ok place) (hdir : fs.look place = some .directory) :
    fs.Stands root place ⟨root, place⟩ [] [] :=
  ⟨.root, rfl, hplace, hdir, fun _ _ => Nat.zero_le _⟩

theorem length_lt (h : fs.Stands root place here inside way) : inside.length < fs.walkDepth := by
  obtain ⟨_, k, hk, hpasses⟩ := locate_iff_passes.1 h.located
  have hheight : here.location.length < fs.root.height := length_lt_height h.isDirectory
  calc inside.length ≤ k * fs.root.height + here.location.length := h.depth k hpasses
    _ < k * fs.root.height + fs.root.height := Nat.add_lt_add_left hheight _
    _ = (k + 1) * fs.root.height := (Nat.succ_mul k _).symm
    _ ≤ (linkLimit + 1) * fs.root.height := Nat.mul_le_mul_right _ (Nat.succ_le_succ hk)

theorem path_join (h : fs.Stands root place here inside way) (n : Name) :
    here.path.join n = root.extend (way ++ [n]) := by
  rw [h.path, Path.join, Path.extend_append]

section
variable (h : fs.Stands root place here inside way) (hroot : root.segments ≠ [.blank])
include h hroot

theorem locate_join :
    fs.locate (here.path.join n) = .ok next ↔
      (here.path.join n).isTooLong = false ∧ ∃ k, k ≤ linkLimit ∧
        fs.NameTo here.location n next ∧ fs.Passes (here.path.join n) k next := by
  obtain ⟨hcheck, k, hk, hpasses⟩ := locate_iff_passes.1 h.located
  have hblank : here.path.segments ≠ [.blank] := h.path ▸ Path.extend_ne_blank hroot way
  rw [locate_iff_passes]
  refine ⟨?_, ?_⟩
  · intro hjoin
    obtain ⟨hcheck', m, hm, hpasses'⟩ := hjoin
    obtain ⟨j, rfl, hname⟩ := (hpasses.join_iff hblank).1 hpasses'
    exact ⟨(Path.check_ok_iff.1 hcheck').2.2, _, hm, ⟨j, hname⟩, hpasses'⟩
  · intro hjoin
    obtain ⟨hshort, m, hm, _, hpasses'⟩ := hjoin
    exact ⟨Path.check_extend hcheck hshort, m, hm, hpasses'⟩

theorem exists_passes (hname : fs.NameTo here.location n next) :
    ∃ k, fs.Passes (here.path.join n) k next := by
  obtain ⟨_, k, _, hpasses⟩ := locate_iff_passes.1 h.located
  obtain ⟨j, hname⟩ := hname
  have hblank : here.path.segments ≠ [.blank] := h.path ▸ Path.extend_ne_blank hroot way
  exact ⟨k + j, (hpasses.join_iff hblank).2 ⟨j, rfl, hname⟩⟩

theorem obstacle {fault : WalkFault} (hthere : fs.look (here.location ++ [n]) ≠ none)
    (henter : fs.enter here inside n = .error fault) :
    fs.Obstacle root way here.location (inside.map (·.location)) n := by
  rcases enter_error henter hthere with ⟨hdir, hlong⟩ | ⟨target, hlink, hrefused | hloop⟩
  · rw [h.path_join] at hlong
    exact .inr (.longPath hdir (by simp) hlong)
  · cases hlong : (here.path.join n).isTooLong with
    | true =>
      rw [h.path_join] at hlong
      exact .inr (.longPath hlink (by simp) hlong)
    | false =>
      by_cases hname : ∃ next, fs.NameTo here.location n next
      · obtain ⟨next, hname⟩ := hname
        obtain ⟨k, hpasses⟩ := h.exists_passes hroot hname
        have hmany : linkLimit < k := by
          apply Nat.lt_of_not_le
          intro hk
          exact hrefused next ((h.locate_join hroot).2 ⟨hlong, k, hk, hname, hpasses⟩)
        rw [h.path_join] at hpasses
        exact .inr (.manyLinks hlink hpasses hmany)
      · exact .inl (.broken hlink fun next hnext => hname ⟨next, hnext⟩)
  · obtain ⟨next, hlocate, hdir, haround⟩ := hloop
    obtain ⟨_, _, _, hname, _⟩ := (h.locate_join hroot).1 hlocate
    exact .inl (.loop hlink hname hdir haround)

theorem no_obstacle {found : Option Visit} (henter : fs.enter here inside n = .ok found) :
    ¬ fs.Obstacle root way here.location (inside.map (·.location)) n := by
  -- What is entered by a link has a path that is taken, so no obstacle on a link is left.
  have hfollowed : ∀ target, fs.look (here.location ++ [n]) = some (.link target) →
      ∃ next, fs.locate (here.path.join n) = .ok next ∧
        (fs.look next = some .directory → next ∉ (here :: inside).map (·.location)) := by
    intro target hlink
    rcases enter_ok henter with ⟨content, hfile, _⟩ | ⟨hdir, _⟩ | ⟨_, next, _, hlocate, hnext⟩
    · rw [hfile] at hlink
      cases hlink
    · rw [hdir] at hlink
      cases hlink
    · refine ⟨next, hlocate, fun hdir => ?_⟩
      rcases hnext with ⟨hnot, _⟩ | ⟨_, hnew, _⟩
      · exact absurd hdir hnot
      · exact hnew
  rintro (hdead | hrefused)
  · cases hdead with
    | broken hlink hnowhere =>
      obtain ⟨next, hlocate, _⟩ := hfollowed _ hlink
      obtain ⟨_, _, _, hname, _⟩ := (h.locate_join hroot).1 hlocate
      exact hnowhere next hname
    | loop hlink hname hdir haround =>
      obtain ⟨next, hlocate, hnew⟩ := hfollowed _ hlink
      obtain ⟨_, _, _, hname', _⟩ := (h.locate_join hroot).1 hlocate
      obtain rfl := hname.unique hname'
      exact hnew hdir haround
  · cases hrefused with
    | manyLinks hlink hpasses hmany =>
      obtain ⟨next, hlocate, _⟩ := hfollowed _ hlink
      obtain ⟨_, m, hm, _, hpasses'⟩ := (h.locate_join hroot).1 hlocate
      rw [h.path_join] at hpasses'
      have hlinks : _ = m := hpasses.links_unique hpasses'
      omega
    | longPath hitem hfile hlong =>
      rw [← h.path_join] at hlong
      rcases enter_ok henter with ⟨content, hcontent, _⟩ | ⟨_, hshort, _⟩ | ⟨_, _, _, hlocate, _⟩
      · rw [hcontent] at hitem
        exact hfile content (Option.some.inj hitem).symm
      · rw [hlong] at hshort
        cases hshort
      · rw [((h.locate_join hroot).1 hlocate).1] at hlong
        cases hlong

theorem enter_none (henter : fs.enter here inside n = .ok none) :
    ∃ next content, fs.NameTo here.location n next ∧ fs.look next = some (.file content) := by
  rcases enter_ok henter with ⟨content, hfile, _⟩ | ⟨_, _, hfound⟩ | ⟨_, next, _, hlocate, hnext⟩
  · exact ⟨_, content, ⟨0, leadsTo_name hfile (by simp)⟩, hfile⟩
  · cases hfound
  · obtain ⟨_, _, _, hname, _⟩ := (h.locate_join hroot).1 hlocate
    obtain ⟨hnot, _⟩ : fs.look next ≠ some .directory ∧ (none : Option Visit) = none := by
      rcases hnext with hnext | ⟨_, _, hfound⟩
      · exact hnext
      · cases hfound
    obtain ⟨j, hleads⟩ := hname
    have hsome : fs.look next ≠ none := hleads.look_found (by rw [h.isDirectory]; simp)
    have hlink := found_not_link hleads h.isDirectory
    cases hitem : fs.look next with
    | none => exact absurd hitem hsome
    | some item =>
      cases item with
      | file content => exact ⟨next, content, ⟨j, hleads⟩, hitem⟩
      | link target => exact absurd hitem (hlink target)
      | directory => exact absurd hitem hnot

theorem enter_some (henter : fs.enter here inside n = .ok (some visit)) :
    fs.NameTo here.location n visit.location ∧
      fs.Stands root place visit (here :: inside) (way ++ [n]) := by
  obtain ⟨hcheck, k, hk, hpasses⟩ := locate_iff_passes.1 h.located
  have hblank : here.path.segments ≠ [.blank] := h.path ▸ Path.extend_ne_blank hroot way
  have hdepth : inside.length ≤ k * fs.root.height + here.location.length := h.depth k hpasses
  rcases enter_ok henter with ⟨_, _, hfound⟩ | ⟨hdir, hshort, hfound⟩ |
    ⟨target, next, hlink, hlocate, ⟨_, hfound⟩ | ⟨hdir, hnew, hfound⟩⟩
  · cases hfound
  · cases hfound
    have hname := leadsTo_name hdir (by simp)
    have hjoin : fs.Passes (here.path.join n) k (here.location ++ [n]) :=
      (hpasses.join_iff hblank).2 ⟨0, rfl, hname⟩
    refine ⟨⟨0, hname⟩, .down h.within ⟨0, hname⟩ hdir ?_, h.path_join n, ?_, hdir, ?_⟩
    · intro target hlink
      rw [hdir] at hlink
      cases hlink
    · exact locate_iff_passes.2 ⟨Path.check_extend hcheck hshort, k, hk, hjoin⟩
    · intro m hm
      obtain rfl : k = m := hjoin.links_unique hm
      simp only [List.length_cons, List.length_append, List.length_nil]
      omega
  · cases hfound
  · cases hfound
    obtain ⟨_, _, _, hname, _⟩ := (h.locate_join hroot).1 hlocate
    refine ⟨hname, .down h.within hname hdir (fun _ _ => hnew), h.path_join n, hlocate, hdir, ?_⟩
    intro m hm
    obtain ⟨j, rfl, hleads⟩ := (hpasses.join_iff hblank).1 hm
    have hpos : 0 < j := links_pos hlink hleads
    have hheight : here.location.length < fs.root.height := length_lt_height h.isDirectory
    calc (here :: inside).length ≤ k * fs.root.height + fs.root.height := by
          rw [List.length_cons]
          omega
      _ = (k + 1) * fs.root.height := (Nat.succ_mul k _).symm
      _ ≤ (k + j) * fs.root.height := Nat.mul_le_mul_right _ (Nat.add_le_add_left hpos k)
      _ ≤ (k + j) * fs.root.height + next.length := Nat.le_add_right _ _

end

end Stands

end Unseal.FileSystem
