import Unseal.Proofs.FileSystem.Plain
import Unseal.Proofs.Walk
/-
  Plain walks — walks where no link stands below the root

  Such a walk fails only at a directory whose path is too long, and it goes as deep
  as the tree is high. So it meets everything: whatever stands below the root of
  the walk is met, and whatever is met stands there.

  What is proved:
    1. `discover_isOk` — a walk below whose root no link stands comes to its end if
       the paths of the directories there are short enough.
    2. `discover_complete` — what stands below the root is met.
    3. `Walks.standing` — what is met stands there.
-/

namespace Unseal

theorem mem_sortNames {n : Name} {names : List Name} : n ∈ sortNames names ↔ n ∈ names := by
  induction names with
  | nil => rfl
  | cons m names ih =>
    show n ∈ insertName m (sortNames names) ↔ _
    rw [mem_insertName, ih, List.mem_cons]

/-! ## Heights -/

namespace Node

theorem height_le_heightOf {n : Name} {x : Node} {entries : List (Name × Node)}
    (h : entries.lookup n = some x) : x.height ≤ heightOf entries := by
  induction entries with
  | nil => cases h
  | cons entry rest ih =>
    obtain ⟨m, y⟩ := entry
    rw [heightOf]
    rw [List.lookup_cons] at h
    split at h
    · cases h
      exact Nat.le_max_left x.height (heightOf rest)
    · exact Nat.le_trans (ih h) (Nat.le_max_right y.height (heightOf rest))

theorem length_add_height_le {x y : Node} {loc : Location} (h : x.at? loc = some y) :
    loc.length + y.height ≤ x.height := by
  induction loc generalizing x with
  | nil =>
    obtain rfl : x = y := Option.some.inj h
    exact (Nat.zero_add _).le
  | cons n loc ih =>
    rw [at?] at h
    split at h
    · next child hchild =>
      cases x with
      | directory entries =>
        have hbelow : loc.length + y.height ≤ child.height := ih h
        have hentry : child.height ≤ heightOf entries := height_le_heightOf hchild
        show loc.length + 1 + y.height ≤ heightOf entries + 1
        omega
      | file content => cases hchild
      | link target => cases hchild
    · cases h

end Node

namespace FileSystem

variable {fs : FileSystem} {input : Path} {place loc : Location} {way rest names : List Name}
  {n : Name} {here visit : Visit} {inside : List Visit} {entries : List Entry}

theorem look_front (h : fs.look (loc ++ rest) ≠ none) : fs.look loc ≠ none := by
  intro hnone
  by_cases hrest : rest = []
  · rw [hrest, List.append_nil] at h
    exact h hnone
  · exact h (look_below (by rw [hnone]; simp) hrest)

theorem length_le_walkDepth (h : fs.look (place ++ rest) ≠ none) : rest.length ≤ fs.walkDepth := by
  obtain ⟨item, hitem⟩ := Option.ne_none_iff_exists'.1 h
  obtain ⟨x, hx, _⟩ := Option.map_eq_some_iff.1 hitem
  have hheight := Node.length_add_height_le hx
  rw [List.length_append] at hheight
  calc rest.length ≤ fs.root.height := by omega
    _ ≤ (linkLimit + 1) * fs.root.height := Nat.le_mul_of_pos_left _ (Nat.succ_pos linkLimit)

/-! ## Names -/

theorem mem_names_iff : n ∈ fs.names loc ↔ fs.look (loc ++ [n]) ≠ none := by
  unfold names look
  rw [Node.at?_append]
  split
  · next entries hentries =>
    rw [hentries, Option.bind_some, Node.at?_singleton, Node.child?, mem_sortNames, Ne,
      Option.map_eq_none_iff, List.lookup_eq_none_iff]
    simp
  · next hnone =>
    cases hx : fs.root.at? loc with
    | none => simp
    | some x =>
      cases x with
      | directory entries => exact absurd hx (hnone entries)
      | file content => simp [Node.at?_singleton, Node.child?]
      | link target => simp [Node.at?_singleton, Node.child?]

/-! ## Entering -/

/-- No link stands at a place or below it. -/
def NoLinksBelow (fs : FileSystem) (place : Location) : Prop :=
  ∀ way target, fs.look (place ++ way) ≠ some (.link target)

theorem NoLinks.below (h : fs.NoLinks) (place : Location) : fs.NoLinksBelow place :=
  fun way => h (place ++ way)

section
variable (h : ∀ target, fs.look (here.location ++ [n]) ≠ some (.link target))
include h

theorem enter_some_plain (henter : fs.enter here inside n = .ok (some visit)) :
    visit = ⟨here.path.join n, here.location ++ [n]⟩ ∧
      fs.look (here.location ++ [n]) = some .directory := by
  rcases enter_ok henter with ⟨_, _, hfound⟩ | ⟨hdir, _, hfound⟩ | ⟨target, _, hlink, _⟩
  · cases hfound
  · cases hfound
    exact ⟨rfl, hdir⟩
  · exact absurd hlink (h target)

theorem enter_none_plain (henter : fs.enter here inside n = .ok none) :
    ∃ content, fs.look (here.location ++ [n]) = some (.file content) := by
  rcases enter_ok henter with ⟨content, hfile, _⟩ | ⟨_, _, hfound⟩ | ⟨target, _, hlink, _⟩
  · exact ⟨content, hfile⟩
  · cases hfound
  · exact absurd hlink (h target)

theorem enter_isOk (hthere : fs.look (here.location ++ [n]) ≠ none)
    (hshort : fs.look (here.location ++ [n]) = some .directory →
      (here.path.join n).isTooLong = false) :
    ∃ found, fs.enter here inside n = .ok found := by
  unfold enter
  dsimp only
  split
  · next hnone => exact absurd hnone hthere
  · exact ⟨_, rfl⟩
  · next hdir =>
    rw [hshort hdir]
    exact ⟨_, rfl⟩
  · next target hlink => exact absurd hlink (h target)

end

/-! ## Walking -/

section
variable (h : fs.NoLinksBelow place)
  (hshort : ∀ way, fs.look (place ++ way) = some .directory → (input.extend way).isTooLong = false)
include h hshort

theorem walkNames_isOk {walk : Visit → List Visit → List Name → Except WalkFault (List Entry)}
    (hwalk : ∀ here inside way, here = ⟨input.extend way, place ++ way⟩ →
      ∃ entries, walk here inside way = .ok entries)
    (hhere : here = ⟨input.extend way, place ++ way⟩) (hnames : names ⊆ fs.names here.location) :
    ∃ entries, fs.walkNames walk here inside way names = .ok entries := by
  induction names with
  | nil => exact ⟨[], rfl⟩
  | cons n names ih =>
    obtain ⟨hn, hrest⟩ := List.cons_subset.1 hnames
    obtain ⟨rest, hrest⟩ := ih hrest
    have hpath : here.path.join n = input.extend (way ++ [n]) := by
      rw [hhere, Path.join, Path.extend_append]
    have hloc : here.location ++ [n] = place ++ (way ++ [n]) := by
      rw [hhere, List.append_assoc]
    have hlink : ∀ target, fs.look (here.location ++ [n]) ≠ some (.link target) := by
      rw [hloc]
      exact h (way ++ [n])
    have hfits : fs.look (here.location ++ [n]) = some .directory →
        (here.path.join n).isTooLong = false := by
      rw [hpath, hloc]
      exact hshort (way ++ [n])
    obtain ⟨found, hfound⟩ : ∃ found, fs.enter here inside n = .ok found :=
      enter_isOk hlink (mem_names_iff.1 hn) hfits
    cases found with
    | none => exact ⟨_, by rw [walkNames, hfound]; simp only [hrest]; rfl⟩
    | some visit =>
      have hvisit : visit = ⟨input.extend (way ++ [n]), place ++ (way ++ [n])⟩ := by
        rw [(enter_some_plain hlink hfound).1, hpath, hloc]
      obtain ⟨below, hbelow⟩ := hwalk visit (here :: inside) (way ++ [n]) hvisit
      exact ⟨_, by rw [walkNames, hfound]; simp only [hbelow, hrest]; rfl⟩

theorem walkDirectory_isOk {depth : Nat} (hhere : here = ⟨input.extend way, place ++ way⟩) :
    ∃ entries, fs.walkDirectory depth here inside way = .ok entries := by
  induction depth generalizing here inside way with
  | zero => exact ⟨[], rfl⟩
  | succ depth ih =>
    exact walkNames_isOk h hshort (fun _ _ _ hhere => ih hhere) hhere (List.Subset.refl _)

/-- A walk below whose root no link stands comes to its end. -/
theorem discover_isOk (hplace : fs.locate input = .ok place) :
    ∃ entries, fs.discover input = .ok entries := by
  unfold discover
  split
  · exact ⟨[], rfl⟩
  · rw [hplace]
    dsimp only
    split
    · apply walkDirectory_isOk h hshort
      rw [List.append_nil]
      rfl
    · exact ⟨[], rfl⟩

end

/-! ## Meeting everything -/

/-- Whatever stands so many steps below a place is met. -/
def Meets (fs : FileSystem) (depth : Nat) (place : Location) (way : List Name)
    (entries : List Entry) : Prop :=
  ∀ rest, rest ≠ [] → rest.length ≤ depth → fs.look (place ++ rest) ≠ none →
    ∃ e ∈ entries, e.path = way ++ rest

section
variable (h : fs.NoLinksBelow place)
include h

theorem walkNames_complete {depth : Nat}
    {walk : Visit → List Visit → List Name → Except WalkFault (List Entry)}
    (hwalk : ∀ {here inside way entries}, here.location = place ++ way →
      walk here inside way = .ok entries → fs.Meets depth here.location way entries)
    (hhere : here.location = place ++ way)
    (hentries : fs.walkNames walk here inside way names = .ok entries) (hn : n ∈ names)
    (hlength : rest.length ≤ depth) (hthere : fs.look (here.location ++ n :: rest) ≠ none) :
    ∃ e ∈ entries, e.path = way ++ n :: rest := by
  have hlink : ∀ target, fs.look (here.location ++ [n]) ≠ some (.link target) := by
    rw [hhere, List.append_assoc]
    exact h (way ++ [n])
  rcases walkNames_ok hentries hn with ⟨henter, he⟩ | ⟨visit, below, henter, hbelow, he, hsubset⟩
  · -- Behind a file nothing stands, so the way ends here.
    obtain ⟨content, hfile⟩ := enter_none_plain hlink henter
    have hrest : rest = [] := by
      apply Decidable.byContradiction
      intro hrest
      rw [List.append_cons] at hthere
      exact hthere (look_below (by rw [hfile]; simp) hrest)
    subst hrest
    exact ⟨_, he, rfl⟩
  · by_cases hrest : rest = []
    · subst hrest
      exact ⟨_, he, rfl⟩
    · have hvisit := (enter_some_plain hlink henter).1
      have hlocation : visit.location = place ++ (way ++ [n]) := by
        rw [hvisit, hhere, List.append_assoc]
      rw [List.append_cons] at hthere
      obtain ⟨e, he, hpath⟩ := hwalk hlocation hbelow rest hrest hlength (by rwa [hvisit])
      refine ⟨e, hsubset he, ?_⟩
      rw [hpath, ← List.append_cons]

theorem walkDirectory_complete {depth : Nat} (hhere : here.location = place ++ way)
    (hentries : fs.walkDirectory depth here inside way = .ok entries) :
    fs.Meets depth here.location way entries := by
  induction depth generalizing here inside way entries with
  | zero =>
    intro rest hrest hlength
    exact absurd (List.length_eq_zero_iff.1 (by omega)) hrest
  | succ depth ih =>
    intro rest hrest hlength hthere
    obtain ⟨n, rest, rfl⟩ := List.exists_cons_of_ne_nil hrest
    have hn : n ∈ fs.names here.location := by
      rw [List.append_cons] at hthere
      exact mem_names_iff.2 (look_front hthere)
    exact walkNames_complete h ih hhere hentries hn (by simpa using hlength) hthere

/-- Where no link stands below the root of the walk everything there is met. -/
theorem discover_complete (hinput : input.isStandardInput = false)
    (hplace : fs.locate input = .ok place) (hentries : fs.discover input = .ok entries)
    (hrest : rest ≠ []) (hthere : fs.look (place ++ rest) ≠ none) :
    ∃ e ∈ entries, e.path = rest := by
  simp only [discover, hinput, hplace, Bool.false_eq_true, if_false] at hentries
  split at hentries
  · exact walkDirectory_complete h (List.append_nil place).symm hentries rest hrest
      (length_le_walkDepth hthere) hthere
  · next hnot => exact absurd (look_below hnot hrest) hthere

end

end FileSystem

/-- Where no link stands below the root of a walk a directory stands where one was met, and a file
where one was. -/
theorem Walks.standing {fs : FileSystem} {place : Location} {here : Visit} {inside : List Visit}
    {way names : List Name} {entries : List Entry} (hwalk : Walks fs here inside way names entries)
    (h : fs.NoLinksBelow place) (hhere : here.location = place ++ way) {e : Entry} (he : e ∈ entries) :
    (e.kind = .directory → fs.look (place ++ e.path) = some .directory) ∧
      (e.kind ≠ .directory → ∃ content, fs.look (place ++ e.path) = some (.file content)) := by
  have hlink : ∀ {here : Visit} {way : List Name} (n : Name), here.location = place ++ way →
      ∀ target, fs.look (here.location ++ [n]) ≠ some (.link target) := by
    intro here way n hhere
    rw [hhere, List.append_assoc]
    exact h (way ++ [n])
  induction hwalk with
  | stop => cases he
  | @file here inside way n names rest henter _ ih =>
    rcases List.mem_cons.1 he with rfl | he
    · refine ⟨fun hkind => absurd hkind (ofFile_ne_directory n), fun _ => ?_⟩
      have hfile := FileSystem.enter_none_plain (hlink n hhere) henter
      rwa [hhere, List.append_assoc] at hfile
    · exact ih hhere he
  | @directory here inside way n names visit entries rest henter _ _ ihbelow ihrest =>
    obtain ⟨hvisit, hdir⟩ := FileSystem.enter_some_plain (hlink n hhere) henter
    rw [hhere, List.append_assoc] at hvisit hdir
    rcases List.mem_append.1 he with he | he
    · rcases List.mem_cons.1 he with rfl | he
      · exact ⟨fun _ => hdir, fun hkind => absurd rfl hkind⟩
      · exact ihbelow (by rw [hvisit]) he
    · exact ihrest hhere he

end Unseal
