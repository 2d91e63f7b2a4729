import Unseal.FileSystem.Operations
import Unseal.Proofs.FileSystem.Parts
import Unseal.Proofs.FileSystem.Resolution
import Unseal.Proofs.Results
/-
  Paths — where paths lead that go on with names

  An operation takes a path that is well made and leads somewhere. What a path
  leads to is kept apart from whether it is well made, for its parts are not
  looked at by themselves, and a path that goes on with names is followed from
  where its beginning leads. Below a directory names lead straight down, since
  no link stands above anything.

  What is proved:
    1. `locate_ok_iff` and the like — when the operations that look succeed.
    2. `PathTo.extend` — a path that goes on with names leads to what the names
       lead to from where the path leads.
    3. `leadsTo_names`, `leadsTo_vacant` — where names lead from a directory.
-/

namespace Unseal

namespace FileSystem

variable {fs fs' : FileSystem} {ending : Ending} {p : Path} {t : Target} {loc root : Location}

/-- The path leads to the target through so many links, when it has led up out of what is removed. -/
def Leads (fs : FileSystem) (ending : Ending) (p : Path) (k : Nat) (t : Target) : Prop :=
  ∃ segments, climb (fs.depth p) p.segments = some segments ∧
    LeadsTo fs.look ending k (fs.start p) segments t

/-- The path leads to the target, through no more links than are followed. -/
def PathTo (fs : FileSystem) (ending : Ending) (p : Path) (t : Target) : Prop :=
  ∃ k, k ≤ linkLimit ∧ fs.Leads ending p k t

/-! ## Operations that look -/

theorem pathTo_iff : fs.PathTo ending p t ↔ ∃ segments, climb (fs.depth p) p.segments = some segments ∧
    follow (Unseal.advance fs.look ending) linkLimit (fs.start p) segments = .ok t := by
  simp only [follow_ok_iff]
  refine ⟨?_, ?_⟩
  · rintro ⟨k, hk, segments, hclimb, hleads⟩
    exact ⟨segments, hclimb, k, hk, hleads⟩
  · rintro ⟨segments, hclimb, k, hk, hleads⟩
    exact ⟨k, hk, segments, hclimb, hleads⟩

theorem resolve_ok_iff : fs.resolve ending p = .ok t ↔ p.check = .ok () ∧ fs.PathTo ending p t := by
  rw [resolve, bind_ok_iff, advance_eq, pathTo_iff]
  refine ⟨?_, ?_⟩
  · intro h
    obtain ⟨⟨⟩, hcheck, h⟩ := h
    split at h
    · next segments hclimb => exact ⟨hcheck, segments, hclimb, h⟩
    · cases h
  · intro h
    obtain ⟨hcheck, segments, hclimb, h⟩ := h
    refine ⟨(), hcheck, ?_⟩
    simp only [hclimb, h]

theorem occupied_ok_iff : t.occupied = .ok loc ↔ t = .found loc := by
  cases t with
  | found loc' => simp [Target.occupied]
  | vacant parent n => simp [Target.occupied]

theorem locate_ok_iff :
    fs.locate p = .ok loc ↔ p.check = .ok () ∧ fs.PathTo .thing p (.found loc) := by
  simp only [locate, bind_ok_iff, occupied_ok_iff, resolve_ok_iff]
  exact ⟨by rintro ⟨_, h, rfl⟩; exact h, fun h => ⟨_, h, rfl⟩⟩

theorem locateEntry_ok_iff :
    fs.locateEntry p = .ok loc ↔ p.check = .ok () ∧ fs.PathTo .entry p (.found loc) := by
  simp only [locateEntry, bind_ok_iff, occupied_ok_iff, resolve_ok_iff]
  exact ⟨by rintro ⟨_, h, rfl⟩; exact h, fun h => ⟨_, h, rfl⟩⟩

theorem stat_ok_iff {item : Item} :
    fs.stat p = .ok item ↔ ∃ loc, fs.locate p = .ok loc ∧ fs.look loc = some item := by
  rw [stat, bind_ok_iff]
  apply exists_congr
  intro loc
  apply and_congr_right
  intro _
  cases fs.look loc with
  | none => simp
  | some item' => simp

theorem isDirectory_iff :
    fs.isDirectory p = true ↔ ∃ loc, fs.locate p = .ok loc ∧ fs.look loc = some .directory := by
  rw [← stat_ok_iff, isDirectory]
  cases fs.stat p with
  | error fault => simp
  | ok item => cases item <;> simp

theorem readFile_ok_iff {content : Bytes} : fs.readFile p = .ok content ↔
    ∃ loc, fs.locate p = .ok loc ∧ fs.look loc = some (.file content) := by
  rw [← stat_ok_iff, readFile, bind_ok_iff]
  refine ⟨?_, ?_⟩
  · intro h
    obtain ⟨item, hstat, h⟩ := h
    cases item with
    | file content' =>
      obtain rfl : content' = content := pure_ok_iff.1 h
      exact hstat
    | link target => cases h
    | directory => cases h
  · intro h
    exact ⟨_, h, rfl⟩

theorem Grows.start (h : Grows fs fs') (p : Path) : fs'.start p = fs.start p := by
  rw [FileSystem.start, FileSystem.start, h.workingDirectory]

theorem Grows.depth (h : Grows fs fs') (p : Path) : fs'.depth p = fs.depth p := by
  rw [FileSystem.depth, FileSystem.depth, h.removed]

theorem Grows.pathTo (h : Grows fs fs') (hp : fs.PathTo ending p (.found loc)) :
    fs'.PathTo ending p (.found loc) := by
  obtain ⟨k, hk, segments, hclimb, hleads⟩ := hp
  refine ⟨k, hk, segments, by rwa [h.depth], ?_⟩
  rw [h.start]
  exact h.kept.leadsTo hleads

theorem Grows.settled (h : Grows fs fs') {parent : Location} {n : Name} {item : Item}
    (hp : fs.PathTo .entry p (.vacant parent n)) (hitem : fs'.look (parent ++ [n]) = some item)
    (hlink : ∀ target, item ≠ .link target) : fs'.PathTo .thing p (.found (parent ++ [n])) := by
  obtain ⟨k, hk, segments, hclimb, hleads⟩ := hp
  refine ⟨k, hk, segments, by rwa [h.depth], ?_⟩
  rw [h.start]
  exact h.kept.settled hleads.thing_of_entry hitem hlink

/-- Where a path leads in a part it leads in the whole: out of what is removed from the part it leads
up, as it leads up through what stands there in the whole. -/
theorem Part.pathTo (h : Part fs fs') (hp : fs.PathTo ending p (.found loc)) :
    fs'.PathTo ending p (.found loc) := by
  obtain ⟨k, hk, segments, hclimb, hleads⟩ := hp
  have hleads := (Keeps.of_eq h.look).leadsTo hleads
  rw [FileSystem.depth] at hclimb
  rw [FileSystem.start] at hleads
  cases habsolute : p.isAbsolute with
  | true =>
    rw [if_pos habsolute] at hclimb hleads
    refine ⟨k, hk, segments, ?_, ?_⟩
    · rwa [FileSystem.depth, if_pos habsolute]
    · rwa [FileSystem.start, if_pos habsolute]
  | false =>
    have habsolute := Bool.eq_false_iff.1 habsolute
    rw [if_neg habsolute] at hclimb hleads
    obtain ⟨lost, hplace, hremoved, hthere⟩ := h.works
    obtain ⟨mid, hmid, hclimb⟩ := climb_add (hremoved ▸ hclimb)
    refine ⟨k, hk, mid, ?_, ?_⟩
    · rwa [FileSystem.depth, if_neg habsolute]
    · rw [FileSystem.start, if_neg habsolute, hplace]
      by_cases hlost : lost = []
      · subst hlost
        cases hclimb
        rwa [List.append_nil]
      · refine .of_climb (fun front hfront => ?_) hclimb hleads
        exact look_ancestor (hplace ▸ hthere hlost) (List.prefix_append_right_inj _ |>.2 hfront)

theorem Part.start_eq (h : Part fs fs') (hdepth : fs.depth p = 0) : fs'.start p = fs.start p := by
  obtain ⟨lost, hplace, hremoved, _⟩ := h.works
  rw [FileSystem.depth] at hdepth
  rw [FileSystem.start, FileSystem.start]
  split
  · rfl
  · next habsolute =>
    rw [if_neg habsolute, hremoved, Nat.add_eq_zero_iff, List.length_eq_zero_iff] at hdepth
    rw [hplace, hdepth.2, List.append_nil]

theorem Grows.locate (h : Grows fs fs') (hp : fs.locate p = .ok loc) : fs'.locate p = .ok loc := by
  obtain ⟨hcheck, hp⟩ := locate_ok_iff.1 hp
  exact locate_ok_iff.2 ⟨hcheck, h.pathTo hp⟩

end FileSystem

/-! ## Names from a directory -/

section
variable {fs : FileSystem} {root : Location}

theorem leadsTo_along {look : Location → Option Item} (ending : Ending) {way : List Name} {item : Item}
    (hway : ∀ front, front <+: way → front ≠ way → look (root ++ front) = some .directory)
    (hitem : look (root ++ way) = some item) (hlink : ∀ target, item ≠ .link target) :
    LeadsTo look ending 0 root (way.map .name) (.found (root ++ way)) := by
  induction way generalizing root with
  | nil => simpa using LeadsTo.done
  | cons n way ih =>
    have hdir : look root = some .directory := by
      simpa using hway [] List.nil_prefix (List.cons_ne_nil n way).symm
    rw [List.append_cons] at hitem ⊢
    have hnext : ∃ next, look (root ++ [n]) = some next ∧ ∀ target, next ≠ .link target := by
      by_cases hnil : way = []
      · subst hnil
        exact ⟨item, by rwa [List.append_nil] at hitem, hlink⟩
      · exact ⟨.directory, hway [n] (by simp) (by simp [hnil]), by simp⟩
    obtain ⟨next, hnext, hother⟩ := hnext
    refine .enter hdir ?_ hnext hother (ih (fun front hfront hne => ?_) hitem)
    · cases way <;> simp [onlySlashes]
    · rw [List.append_assoc]
      exact hway (n :: front) (by simpa using hfront) (by simpa using hne)

/-- Names lead straight down to what stands at the end of them. -/
theorem leadsTo_names (ending : Ending) {way : List Name} {item : Item}
    (hitem : fs.look (root ++ way) = some item) (hlink : ∀ target, item ≠ .link target) :
    LeadsTo fs.look ending 0 root (way.map .name) (.found (root ++ way)) := by
  refine leadsTo_along ending (fun front hfront hne => ?_) hitem hlink
  obtain ⟨rest, rfl⟩ := hfront
  obtain ⟨n, rest, rfl⟩ := List.exists_cons_of_ne_nil (by simpa using hne : rest ≠ [])
  rw [← List.append_assoc] at hitem
  exact FileSystem.look_above hitem

/-- Names lead to a place where nothing stands in a directory. -/
theorem leadsTo_vacant (ending : Ending) {way : List Name} {n : Name}
    (hdir : fs.look (root ++ way) = some .directory) (hnone : fs.look (root ++ way ++ [n]) = none) :
    LeadsTo fs.look ending 0 root ((way ++ [n]).map .name) (.vacant (root ++ way) n) := by
  rw [List.map_append]
  exact (leadsTo_names .thing hdir (by simp)).append (.vacant hdir hnone)
    (.inr ⟨n, List.mem_singleton_self _⟩)

end

/-! ## Paths that go on -/

namespace FileSystem

variable {fs : FileSystem} {ending : Ending} {p : Path} {t : Target} {root : Location}
  {way : List Name}

theorem start_congr {q : Path} (h : p.isAbsolute = q.isAbsolute) : fs.start p = fs.start q := by
  rw [start, start, h]

theorem depth_congr {q : Path} (h : p.isAbsolute = q.isAbsolute) : fs.depth p = fs.depth q := by
  rw [depth, depth, h]

theorem start_of_isAbsolute (h : p.isAbsolute = true) : fs.start p = [] := by rw [start, if_pos h]

theorem depth_of_isAbsolute (h : p.isAbsolute = true) : fs.depth p = 0 := by rw [depth, if_pos h]

theorem leads_iff {k : Nat} (h : fs.depth p = 0) :
    fs.Leads ending p k t ↔ LeadsTo fs.look ending k (fs.start p) p.segments t := by
  rw [Leads, h]
  refine ⟨?_, fun hleads => ⟨_, rfl, hleads⟩⟩
  rintro ⟨segments, hclimb, hleads⟩
  cases hclimb
  exact hleads

theorem leads_rooted_iff {k : Nat} {segments : List Segment} (hroot : fs.look [] = some .directory) :
    fs.Leads .thing (.rooted segments) k t ↔ LeadsTo fs.look .thing k [] segments t := by
  have habsolute := Path.isAbsolute_rooted segments
  rw [leads_iff (depth_of_isAbsolute habsolute), start_of_isAbsolute habsolute]
  cases segments with
  | nil =>
    refine ⟨fun h => ?_, fun h => .idle hroot rfl (.idle hroot rfl h)⟩
    cases h with
    | idle _ _ h =>
      cases h with
      | idle _ _ h => exact h
  | cons s rest =>
    refine ⟨fun h => ?_, fun h => .idle hroot rfl h⟩
    cases h with
    | idle _ _ h => exact h

theorem Leads.depth_eq {k : Nat} (h : fs.Leads ending p k t) (hup : .up ∉ p.segments) :
    fs.depth p = 0 := by
  obtain ⟨segments, hclimb, _⟩ := h
  exact climb_eq_zero hclimb hup

theorem PathTo.vacancy {parent : Location} {n : Name} (h : fs.PathTo ending p (.vacant parent n)) :
    fs.look parent = some .directory ∧ fs.look (parent ++ [n]) = none := by
  obtain ⟨_, _, _, _, hleads⟩ := h
  exact hleads.vacancy

theorem PathTo.entry_of_thing (h : fs.PathTo .thing p (.found loc)) :
    ∃ loc', fs.PathTo .entry p (.found loc') ∧ (fs.look loc ≠ none → fs.look loc' ≠ none) := by
  obtain ⟨k, hk, segments, hclimb, hleads⟩ := h
  obtain ⟨k', loc', hk', hfound⟩ := hleads.entry_of_thing
  refine ⟨loc', ⟨k', Nat.le_trans hk' hk, segments, hclimb, hfound⟩, fun hloc => hfound.look_found ?_⟩
  by_cases hnil : segments = []
  · subst hnil
    cases hleads
    exact hloc
  · rw [hleads.directory hnil]
    simp

theorem PathTo.locate_ne_missing (h : fs.PathTo .thing p (.found loc)) (hp : p.segments ≠ []) :
    fs.locate p ≠ .error .missing := by
  cases hcheck : p.check with
  | ok _ =>
    rw [locate_ok_iff.2 ⟨hcheck, h⟩]
    simp
  | error fault =>
    have hlocate : fs.locate p = .error fault := by
      rw [locate, resolve, hcheck]
      rfl
    rw [hlocate]
    exact fun hmissing => Path.check_error hp hcheck (Except.error.inj hmissing)

theorem look_of_locate (h : fs.locate p = .ok loc) (hpresent : fs.depth p = 0) :
    fs.look loc ≠ none := by
  obtain ⟨hcheck, k, _, hleads⟩ := locate_ok_iff.1 h
  rw [leads_iff hpresent] at hleads
  refine hleads.look_found ?_
  rw [hleads.directory (Path.segments_ne_nil_of_check hcheck)]
  simp

/-- The path leads up out of what is removed. -/
def LeadsOut (fs : FileSystem) (p : Path) : Prop :=
  ∃ segments, climb (fs.depth p) p.segments = some segments

theorem Leads.leadsOut {k : Nat} (h : fs.Leads ending p k t) : fs.LeadsOut p := by
  obtain ⟨segments, hclimb, _⟩ := h
  exact ⟨segments, hclimb⟩

theorem PathTo.leadsOut (h : fs.PathTo ending p t) : fs.LeadsOut p := by
  obtain ⟨_, _, h⟩ := h
  exact h.leadsOut

section
variable {q : Path} {rest : List Segment} {k j : Nat} {mid : Location}
  (habsolute : p.isAbsolute = q.isAbsolute) (hp : p.segments = q.segments ++ rest)
include habsolute hp

theorem Leads.append (h : fs.Leads .thing q k (.found mid)) (h' : LeadsTo fs.look ending j mid rest t)
    (hend : ending = .thing ∨ ∃ n, .name n ∈ rest) : fs.Leads ending p (k + j) t := by
  obtain ⟨segments, hclimb, hleads⟩ := h
  refine ⟨segments ++ rest, ?_, ?_⟩
  · rw [depth_congr habsolute, hp]
    exact climb_append hclimb rest
  · rw [start_congr habsolute]
    exact hleads.append h' hend

theorem Leads.split (h : fs.Leads .thing p k t) (hrest : rest ≠ []) (hq : fs.LeadsOut q) :
    ∃ i j mid, k = i + j ∧ fs.Leads .thing q i (.found mid) ∧
      LeadsTo fs.look .thing j mid rest t := by
  obtain ⟨front, hfront⟩ := hq
  obtain ⟨segments, hclimb, hleads⟩ := h
  rw [depth_congr habsolute, hp, climb_append hfront rest] at hclimb
  obtain rfl := Option.some.inj hclimb
  rw [start_congr habsolute] at hleads
  obtain ⟨i, j, mid, hk, hi, hj⟩ := hleads.split hrest
  exact ⟨i, j, mid, hk, ⟨front, hfront, hi⟩, hj⟩

theorem LeadsOut.before (h : fs.LeadsOut p)
    (hup : ∀ above, rest.dropWhile Segment.isIdle ≠ .up :: above) : fs.LeadsOut q := by
  obtain ⟨segments, hclimb⟩ := h
  rw [depth_congr habsolute, hp] at hclimb
  obtain ⟨front, hfront, _⟩ := climb_before hclimb hup
  exact ⟨front, hfront⟩

end

theorem Leads.front {k : Nat} (h : fs.Leads .thing p k (.found loc)) (hp : p.segments ≠ [.blank]) :
    fs.Leads .thing ⟨p.front⟩ k (.found loc) ∧ p.isAbsolute = (Path.mk p.front).isAbsolute := by
  rcases p.segments_front with hfront | hfront
  · rw [← hfront]
    exact ⟨h, rfl⟩
  · have hne : p.front ≠ [] := by
      intro hnil
      rw [hnil] at hfront
      exact hp hfront
    have habsolute : p.isAbsolute = (Path.mk p.front).isAbsolute :=
      Path.isAbsolute_eq_of_append hfront hne
    have hout : fs.LeadsOut ⟨p.front⟩ :=
      h.leadsOut.before habsolute hfront
        (no_step_up [.blank] (by simp [Segment.isIdle]) (.inl rfl))
    obtain ⟨i, j, mid, rfl, hi, hj⟩ := h.split habsolute hfront (List.cons_ne_nil _ _) hout
    cases hj with
    | idle _ _ hj =>
      cases hj
      exact ⟨hi, habsolute⟩

theorem Leads.extend {k j : Nat} (h : fs.Leads .thing p k (.found root)) (hp : p.segments ≠ [.blank])
    (hway : LeadsTo fs.look ending j root (way.map .name) t) (hne : way ≠ []) :
    fs.Leads ending (p.extend way) (k + j) t := by
  obtain ⟨hfront, habsolute⟩ := h.front hp
  have hname : ∃ n, .name n ∈ way.map Segment.name :=
    ⟨way.head hne, List.mem_map_of_mem (List.head_mem hne)⟩
  exact hfront.append ((Path.isAbsolute_extend hp way).trans habsolute) (p.segments_extend hne) hway
    (.inr hname)

theorem PathTo.extend (h : fs.PathTo .thing p (.found root)) (hp : p.segments ≠ [.blank])
    (hway : LeadsTo fs.look ending 0 root (way.map .name) t) (hne : way ≠ []) :
    fs.PathTo ending (p.extend way) t := by
  obtain ⟨k, hk, hleads⟩ := h
  exact ⟨k, hk, hleads.extend hp hway hne⟩

theorem Leads.missing {q : Path} {blanks : List Segment} {n : Name} {k : Nat} (hcheck : p.check = .ok ())
    (habsolute : p.isAbsolute = q.isAbsolute) (hp : p.segments = q.segments ++ .name n :: blanks)
    (hk : k ≤ linkLimit) (h : fs.Leads .thing q k (.found root)) (hdir : fs.look root = some .directory)
    (hnone : fs.look (root ++ [n]) = none) (hending : ending ≠ .file) :
    fs.resolve ending p >>= Target.occupied = .error .missing := by
  obtain ⟨segments, hclimb, hleads⟩ := h
  have hstep : Unseal.advance fs.look ending root (.name n :: blanks) =
      if blanks.isEmpty then .arrived (.vacant root n) else .refused .missing := by
    simp only [Unseal.advance, hdir, hnone, hending, decide_false, Bool.false_and,
      Bool.false_eq_true, if_false]
  have hclimb : climb (fs.depth p) p.segments = some (segments ++ .name n :: blanks) := by
    rw [hp, depth_congr habsolute]
    exact climb_append hclimb _
  rw [resolve, hcheck, advance_eq]
  simp only [hclimb, bind, Except.bind, start_congr habsolute]
  rw [hleads.follow_append hk ⟨n, List.mem_cons_self⟩, follow_eq, hstep]
  cases blanks <;> rfl

theorem Leads.unique {t' : Target} {k j : Nat} (h : fs.Leads ending p k t)
    (h' : fs.Leads ending p j t') : t = t' := by
  obtain ⟨segments, hclimb, hleads⟩ := h
  obtain ⟨segments', hclimb', hleads'⟩ := h'
  obtain rfl := Option.some.inj (hclimb.symm.trans hclimb')
  exact hleads.unique hleads'

theorem Leads.links_unique {t' : Target} {k j : Nat} (h : fs.Leads ending p k t)
    (h' : fs.Leads ending p j t') : k = j := by
  obtain ⟨segments, hclimb, hleads⟩ := h
  obtain ⟨segments', hclimb', hleads'⟩ := h'
  obtain rfl := Option.some.inj (hclimb.symm.trans hclimb')
  exact hleads.links_unique hleads'

theorem PathTo.unique {t' : Target} (h : fs.PathTo ending p t) (h' : fs.PathTo ending p t') :
    t = t' := by
  obtain ⟨_, _, h⟩ := h
  obtain ⟨_, _, h'⟩ := h'
  exact h.unique h'

end FileSystem

end Unseal
