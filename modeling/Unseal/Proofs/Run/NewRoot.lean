import Unseal.Proofs.FileSystem.Plain
import Unseal.Proofs.Run.Apart
/-
  New roots — runs to an output that is not there yet

  Nothing stands at such an output, not even a link, but the directory is there in
  which it is to stand. The path to it may pass through links and lead up; still it
  is compared as its name in the place of that directory, whose path from the root
  leads there as well. So roots are allowed if neither lies in the other as they
  stand, and preparing the output puts one empty directory there and nothing else.

  What is proved:
    1. `VacantAt.resolve` — such an output is missing, however it is looked for.
    2. `VacantAt.outputPlace` — it is compared as its place.
    3. `VacantAt.allowRoots`, `VacantAt.prepareOutput` — it is allowed and made.
-/

namespace Unseal

namespace FileSystem

variable {fs : FileSystem} {input output p : Path} {place parent : Location} {n : Name}

/-- Nothing stands at the path, and the directory is there in which it has this name. -/
structure VacantAt (fs : FileSystem) (p : Path) (parent : Location) (n : Name) : Prop where
  taken : p.check = .ok ()
  vacant : fs.PathTo .entry p.withoutTrailingSlash (.vacant parent n)

/-- A new root does not begin in what is removed, and the path from the root to the directory in which
it is to stand is neither too long itself nor passes a place to which no path leads that is not. -/
structure AboveShort (fs : FileSystem) (p : Path) (parent : Location) : Prop where
  present : fs.depth p = 0
  above : ∀ whole, fs.absolute p = .ok whole → (Path.rooted whole.dropLast).isTooLong = false ∧
    fs.LeadsShort (.rooted whole.dropLast) parent

theorem check_rooted {segments : List Segment} (hzero : ∀ s ∈ segments, s.holdsZero = false)
    (hshort : (Path.rooted segments).isTooLong = false) : (Path.rooted segments).check = .ok () := by
  cases segments with
  | nil => rfl
  | cons s rest =>
    exact Path.check_ok_iff.2 ⟨List.cons_ne_nil _ _, List.forall_mem_cons.2 ⟨rfl, hzero⟩, hshort⟩

theorem vacantAt_ofNames {front : List Name} (hpresent : fs.removed = 0)
    (hcheck : (Path.ofNames (front ++ [n])).check = .ok ())
    (hdir : fs.look (fs.workingDirectory ++ front) = some .directory)
    (hnone : fs.look (fs.workingDirectory ++ (front ++ [n])) = none) :
    fs.VacantAt (.ofNames (front ++ [n])) (fs.workingDirectory ++ front) n := by
  refine ⟨hcheck, ?_⟩
  rw [Path.withoutTrailingSlash_of_name (Path.ofNames_append front [n])]
  exact pathTo_ofNames_vacant hpresent hdir hnone

namespace VacantAt

variable (h : fs.VacantAt output parent n)
include h

theorem look : fs.look parent = some .directory ∧ fs.look (parent ++ [n]) = none :=
  h.vacant.vacancy

theorem isEmpty : output.isEmpty = false :=
  List.isEmpty_eq_false_iff.2 (Path.segments_ne_nil_of_check h.taken)

theorem resolve {ending : Ending} (hending : ending ≠ .file) :
    fs.resolve ending output >>= Target.occupied = .error .missing := by
  obtain ⟨hdir, hnone⟩ := h.look
  obtain ⟨k, front, blanks, hk, hsplit, _, habsolute, hleads⟩ :=
    h.vacant.before_vacant (Path.segments_ne_nil_of_check h.taken)
  exact hleads.missing h.taken habsolute hsplit hk hdir hnone hending

theorem locateEntry_missing : fs.locateEntry output = .error .missing := h.resolve (by simp)

theorem not_there : fs.isThere output = false := by
  apply isThere_of_error
  exact h.resolve (by simp)

/-! ## Comparing -/

theorem locate_above (hpresent : fs.depth output = 0) : ∃ above,
    fs.absolute output = .ok (above ++ [.name n]) ∧ ((Path.rooted above).isTooLong = false → fs.locate (.rooted above) = .ok parent) := by
  have hne := Path.segments_ne_nil_of_check h.taken
  obtain ⟨k, front, blanks, hk, hsplit, hblanks, habsolute, hleads⟩ := h.vacant.before_vacant hne
  rw [leads_iff (depth_congr habsolute ▸ hpresent), ← start_congr habsolute] at hleads
  have hstart := hleads.directory_start h.look.1
  have hidle : blanks.filter (!·.isIdle) = [] := List.filter_eq_nil_iff.2 (by simpa using hblanks)
  have hmoves : output.moves = front.filter (!·.isIdle) ++ [.name n] := by
    rw [Path.moves, hsplit, List.filter_append, List.filter_cons_of_pos rfl, hidle]
  refine ⟨(fs.start output).map .name ++ front.filter (!·.isIdle), ?_, fun hshort => ?_⟩
  · rw [absolute_eq h.isEmpty hpresent, hmoves, List.append_assoc]
  · have hnames : LeadsTo fs.look .thing 0 [] ((fs.start output).map .name)
        (.found (fs.start output)) := leadsTo_names .thing hstart (by simp)
    have hway := hnames.append (hleads.moves rfl [] front rfl) (.inl rfl)
    rw [Nat.zero_add] at hway
    have hroot := look_ancestor hstart List.nil_prefix
    refine locate_ok_iff.2 ⟨check_rooted (fun s hs => ?_) hshort, k, hk,
      (leads_rooted_iff hroot).2 hway⟩
    rcases List.mem_append.1 hs with hs | hs
    · obtain ⟨m, _, rfl⟩ := List.mem_map.1 hs
      rfl
    · refine (Path.check_ok_iff.1 h.taken).2.1 s ?_
      rw [hsplit]
      exact List.mem_append_left _ (List.mem_filter.1 hs).1

theorem outputPlace (habove : fs.AboveShort output parent) :
    fs.outputPlace output = .ok ((parent ++ [n]).map .name) := by
  obtain ⟨above, habsolute, hlocate⟩ := h.locate_above habove.present
  obtain ⟨hwritten, hshort⟩ := habove.above _ habsolute
  rw [List.dropLast_concat] at hwritten hshort
  have hthere := hlocate hwritten
  rw [outputPlace_missing h.not_there habsolute, if_pos (isThere_iff.2 ⟨_, hthere⟩),
    hshort.canonical hthere, List.map_append]
  rfl

theorem apart (hthere : fs.look place ≠ none) (hout : ¬ place <+: parent) :
    Apart place (parent ++ [n]) := by
  have hnone := h.look.2
  refine ⟨fun hin => ?_, ?_⟩
  · rcases List.prefix_concat_iff.1 hin with rfl | habove
    · exact hthere hnone
    · exact hout habove
  · rintro ⟨rest, rfl⟩
    by_cases hrest : rest = []
    · rw [hrest, List.append_nil] at hthere
      exact hthere hnone
    · exact hthere (look_below (by rw [hnone]; simp) hrest)

theorem allowRoots (hplace : fs.locate input = .ok place) (hdir : fs.look place = some .directory)
    (hout : ¬ place <+: parent) (hshort : fs.LeadsShort input place)
    (habove : fs.AboveShort output parent) :
    fs.allowRoots input output = .ok () := by
  have hapart : Apart place (parent ++ [n]) := h.apart (by rw [hdir]; simp) hout
  exact allowRoots_of_apart hplace hdir (hshort.canonical hplace) (h.outputPlace habove) hapart

/-! ## Preparing -/

/-- The output is made an empty directory, and that is all that is done. -/
theorem prepareOutput : ∃ prepared, fs.prepareOutput output = (prepared, .ok ()) ∧
    Sets fs prepared (parent ++ [n]) .directory ∧
    prepared.locate output = .ok (parent ++ [n]) := by
  have hresolve : fs.resolve .entry output.withoutTrailingSlash = .ok (.vacant parent n) :=
    resolve_ok_iff.2 ⟨Path.check_withoutTrailingSlash h.taken, h.vacant⟩
  obtain ⟨prepared, hmake⟩ : ∃ prepared, fs.makeDirectory output = .ok prepared := by
    refine ⟨fs.put parent n (.directory []), ?_⟩
    rw [makeDirectory, h.taken, makeEntry, hresolve]
    rfl
  obtain ⟨parent', n', hvacant, _, hsets, hlocate⟩ := makeDirectory_sets hmake
  cases h.vacant.unique hvacant
  refine ⟨prepared, ?_, hsets, hlocate⟩
  simp only [FileSystem.prepareOutput, clearOutput, h.locateEntry_missing, makeDirectories,
    makeMissing, h.isEmpty, hmake]
  rfl

end VacantAt

end FileSystem

end Unseal
