import Unseal.Walk
import Unseal.Proofs.FileSystem.Plain
/-
  What is below a directory — without a walk

  With links followed a tree is a graph, and a walk of it may go around in circles.
  What is below a directory is said here without a walk: names lead down from it
  to directories, and each name in one of these leads to a directory or a file
  (`Within`, `KindOf`). A walk cannot get over a link that leads nowhere, nor over
  one to a directory that it is inside of, nor over what no operation takes, a path
  that is too long or goes through too many links (`Obstacle`).

  What is proved:
    1. `Name.isClassFile_iff` — which files are called class files.
    2. `KindOf.unique` — what is under a name is of one kind.
    3. `Passes.join_iff` — the links on a path that goes on with a name are those on
       the path and those behind the name.
-/

namespace Unseal

/-! ## Names of class files -/

/-- The name is something with `.class` behind it. -/
def Name.HasStem (n : Name) : Prop := ∃ stem, stem ≠ "" ∧ n.text = stem ++ ".class"

theorem Name.isClassFile_iff (n : Name) : n.isClassFile = true ↔ n.HasStem := by
  rw [isClassFile, Bool.and_eq_true, List.isSuffixOf_iff_suffix, decide_eq_true_eq]
  refine ⟨?_, ?_⟩
  · intro h
    obtain ⟨⟨stem, hstem⟩, hne⟩ := h
    have htext : n.text = String.ofList stem ++ ".class" := by
      rw [← String.toList_inj, String.toList_append, String.toList_ofList, hstem]
    refine ⟨String.ofList stem, ?_, htext⟩
    intro hempty
    rw [hempty, String.empty_append] at htext
    exact hne htext
  · intro h
    obtain ⟨stem, hstem, htext⟩ := h
    refine ⟨⟨stem.toList, by rw [htext, String.toList_append]⟩, ?_⟩
    intro hclass
    rw [htext, ← String.toList_inj, String.toList_append] at hclass
    exact hstem (String.toList_eq_nil_iff.1 (List.append_left_eq_self.1 hclass))

namespace Path

theorem splitSlashes_eq_nil_part {cs : List Char} (h : splitSlashes cs = [[]]) : cs = [] := by
  cases cs with
  | nil => rfl
  | cons c rest =>
    rw [splitSlashes] at h
    split at h
    · cases h
    · split at h <;> cases h

theorem ofText_ne_blank (text : String) : (ofText text).segments ≠ [.blank] := by
  intro h
  rw [ofText] at h
  split at h
  · cases h
  · next hne =>
    obtain ⟨part, hsplit, hpart⟩ := List.map_eq_singleton_iff.1 h
    have hempty : String.ofList part = "" := by
      unfold Segment.ofText at hpart
      split at hpart
      · next hempty => exact hempty
      · split at hpart
        · cases hpart
        · split at hpart
          · cases hpart
          · split at hpart <;> cases hpart
    have hnil : part = [] := by
      rw [← String.toList_ofList (l := part), hempty, String.toList_empty]
    rw [hnil] at hsplit
    exact hne (String.toList_inj.1 (splitSlashes_eq_nil_part hsplit))

end Path

namespace FileSystem

/-! ## What is below a directory -/

/-- In the directory the name leads to the place, through links if need be. -/
def NameTo (fs : FileSystem) (here : Location) (n : Name) (next : Location) : Prop :=
  ∃ k, LeadsTo fs.look .thing k here [.name n] (.found next)

/-- The path leads to the place through so many links. -/
def Passes (fs : FileSystem) (p : Path) (k : Nat) (loc : Location) : Prop :=
  fs.Leads .thing p k (.found loc)

/-- Names lead from the directory at the place down to another one, which is inside of those
around it, the nearest first. No link is followed to a directory that it is inside of. -/
inductive Within (fs : FileSystem) (place : Location) :
    List Name → Location → List Location → Prop where
  | root : Within fs place [] place []
  | down {way here around n next} (habove : Within fs place way here around)
    (hname : fs.NameTo here n next) (hdir : fs.look next = some .directory)
    (hnew : ∀ target, fs.look (here ++ [n]) = some (.link target) → next ∉ here :: around) :
    Within fs place (way ++ [n]) next (here :: around)

/-- What the name leads to in the directory, and for a file whether it is called a class file. -/
inductive KindOf (fs : FileSystem) (here : Location) (n : Name) : EntryKind → Prop where
  | directory {next} (hname : fs.NameTo here n next) (hdir : fs.look next = some .directory) :
    KindOf fs here n .directory
  | classFile {next content} (hname : fs.NameTo here n next)
    (hfile : fs.look next = some (.file content)) (hstem : n.HasStem) : KindOf fs here n .classFile
  | plainFile {next content} (hname : fs.NameTo here n next)
    (hfile : fs.look next = some (.file content)) (hstem : ¬ n.HasStem) :
    KindOf fs here n .plainFile

/-- The entry is below the directory at the place. -/
def Below (fs : FileSystem) (place : Location) (e : Entry) : Prop :=
  ∃ way here around n, e.path = way ++ [n] ∧ fs.Within place way here around ∧
    fs.KindOf here n e.kind

/-- At the name is a link that leads nowhere, or one to a directory that it is inside of. -/
inductive DeadEnd (fs : FileSystem) (here : Location) (around : List Location) (n : Name) :
    Prop where
  | broken {target} (hlink : fs.look (here ++ [n]) = some (.link target))
    (hnowhere : ∀ next, ¬ fs.NameTo here n next)
  | loop {target next} (hlink : fs.look (here ++ [n]) = some (.link target))
    (hname : fs.NameTo here n next) (hdir : fs.look next = some .directory)
    (haround : next ∈ here :: around)

/-- At the name is a directory or a link whose path no operation takes, because it is too long or
leads through too many links. -/
inductive Refused (fs : FileSystem) (root : Path) (way : List Name) (here : Location) (n : Name) :
    Prop where
  | longPath {item} (hitem : fs.look (here ++ [n]) = some item)
    (hfile : ∀ content, item ≠ .file content) (hlong : (root.extend (way ++ [n])).isTooLong = true)
  | manyLinks {target k next} (hlink : fs.look (here ++ [n]) = some (.link target))
    (hpasses : fs.Passes (root.extend (way ++ [n])) k next) (hmany : linkLimit < k)

/-- What a walk cannot get over at a name. -/
def Obstacle (fs : FileSystem) (root : Path) (way : List Name) (here : Location)
    (around : List Location) (n : Name) : Prop :=
  fs.DeadEnd here around n ∨ fs.Refused root way here n

variable {fs : FileSystem} {root p : Path} {loc next : Location} {way : List Name} {n : Name}
  {k j : Nat}

theorem NameTo.unique {here next' : Location} (h : fs.NameTo here n next)
    (h' : fs.NameTo here n next') : next = next' := by
  obtain ⟨_, h⟩ := h
  obtain ⟨_, h'⟩ := h'
  exact Target.found.inj (h.unique h')

theorem NameTo.look_ne_none {here : Location} (h : fs.NameTo here n next) :
    fs.look (here ++ [n]) ≠ none := by
  obtain ⟨_, h⟩ := h
  exact h.look_name

theorem KindOf.look_ne_none {here : Location} {kind : EntryKind} (h : fs.KindOf here n kind) :
    fs.look (here ++ [n]) ≠ none := by
  cases h with
  | directory hname | classFile hname | plainFile hname => exact hname.look_ne_none

theorem Obstacle.look_ne_none {here : Location} {around : List Location}
    (h : fs.Obstacle root way here around n) : fs.look (here ++ [n]) ≠ none := by
  obtain (⟨hitem, _⟩ | ⟨hitem, _⟩) | (⟨hitem, _⟩ | ⟨hitem, _⟩) := h <;>
    rw [hitem] <;> simp

theorem leadsTo_name {item : Item} (hitem : fs.look (loc ++ [n]) = some item)
    (hlink : ∀ target, item ≠ .link target) :
    LeadsTo fs.look .thing 0 loc [.name n] (.found (loc ++ [n])) :=
  leadsTo_names .thing hitem hlink

theorem KindOf.unique {here : Location} {kind kind' : EntryKind} (h : fs.KindOf here n kind)
    (h' : fs.KindOf here n kind') : kind = kind' := by
  cases h with
  | directory hname hdir =>
    cases h' with
    | directory => rfl
    | classFile hname' hfile | plainFile hname' hfile =>
      rw [← hname.unique hname', hdir] at hfile
      cases hfile
  | classFile hname hfile hstem =>
    cases h' with
    | directory hname' hdir =>
      rw [hname.unique hname', hdir] at hfile
      cases hfile
    | classFile => rfl
    | plainFile _ _ hnot => exact absurd hstem hnot
  | plainFile hname hfile hstem =>
    cases h' with
    | directory hname' hdir =>
      rw [hname.unique hname', hdir] at hfile
      cases hfile
    | classFile _ _ hstem' => exact absurd hstem' hstem
    | plainFile => rfl

theorem kindOf_file {here : Location} {content : Bytes} (hname : fs.NameTo here n next)
    (hfile : fs.look next = some (.file content)) : fs.KindOf here n (.ofFile n) := by
  rw [EntryKind.ofFile]
  split
  · next hclass => exact .classFile hname hfile (n.isClassFile_iff.1 hclass)
  · next hclass => exact .plainFile hname hfile (mt n.isClassFile_iff.2 hclass)

/-! ## Paths and the links on them -/

theorem found_not_link {segments : List Segment} {found : Location}
    (h : LeadsTo fs.look .thing k loc segments (.found found))
    (hloc : fs.look loc = some .directory) (target : Path) :
    fs.look found ≠ some (.link target) := by
  have hstart : ∀ target, fs.look loc ≠ some (.link target) := by
    intro target
    rw [hloc]
    simp
  clear hloc
  generalize ht : Target.found found = t at h
  induction h with
  | done =>
    cases ht
    exact hstart target
  | idle _ _ _ ih => exact ih hstart ht
  | up hdir _ ih => exact ih (by simp [look_dropLast hdir]) ht
  | vacant => cases ht
  | enter _ _ hitem hlink _ ih => exact ih (by simpa [hitem] using hlink) ht
  | stop _ hentry => cases hentry
  | pass hdir _ _ _ _ ih =>
    refine ih (fun target => ?_) ht
    split
    · rw [look_ancestor hdir List.nil_prefix]
      simp
    · rw [hdir]
      simp

/-- A path that goes on with a name leads through the links that it had and those behind the
name. -/
theorem Passes.join_iff {m : Nat} (h : fs.Passes p k loc) (hp : p.segments ≠ [.blank]) :
    fs.Passes (p.join n) m next ↔
      ∃ j, m = k + j ∧ LeadsTo fs.look .thing j loc [.name n] (.found next) := by
  obtain ⟨hfront, habsolute⟩ := h.front hp
  have hjoined : (p.join n).isAbsolute = (Path.mk p.front).isAbsolute :=
    (Path.isAbsolute_extend hp [n]).trans habsolute
  have hsegments : (p.join n).segments = p.front ++ [.name n] :=
    p.segments_extend (List.cons_ne_nil n [])
  refine ⟨?_, ?_⟩
  · intro hjoin
    obtain ⟨i, j, mid, rfl, hi, hj⟩ :=
      hjoin.split hjoined hsegments (List.cons_ne_nil _ _) hfront.leadsOut
    obtain rfl := Target.found.inj (hi.unique hfront)
    obtain rfl := hi.links_unique hfront
    exact ⟨j, rfl, hj⟩
  · intro hname
    obtain ⟨j, rfl, hname⟩ := hname
    exact hfront.append hjoined hsegments hname (.inl rfl)

theorem locate_iff_passes :
    fs.locate p = .ok loc ↔ p.check = .ok () ∧ ∃ k, k ≤ linkLimit ∧ fs.Passes p k loc :=
  locate_ok_iff

theorem links_pos {target : Path} (hlink : fs.look (loc ++ [n]) = some (.link target))
    (h : LeadsTo fs.look .thing j loc [.name n] (.found next)) : 0 < j := by
  cases h with
  | idle _ hidle => cases hidle
  | enter _ _ hitem hnot =>
    rw [hlink] at hitem
    exact absurd (Option.some.inj hitem).symm (hnot target)
  | stop _ hentry => cases hentry
  | pass => exact Nat.succ_pos _

end FileSystem

end Unseal
