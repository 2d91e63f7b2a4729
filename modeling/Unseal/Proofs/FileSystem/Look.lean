import Unseal.FileSystem.Trail
/-
  Look — what is seen of a change in a file system

  A tree of entries is known here by what stands at each place. Putting an entry
  into a directory is seen at one place, and taking entries out is seen at them
  and below them. Three relations say all that is needed of such changes: one place
  is set and nothing else moves (`Sets`), nothing that stood anywhere is gone or of
  another kind (`Grows`), and nothing stands that did not stand before (`Part`).

  What is proved:
    1. `look_above` — above something there is a directory.
    2. `put_sets` — putting a file or an empty directory where no directory stands
       sets that place.
    3. `part_of_erase`, `part_of_clear` — what is left by taking entries out was
       there before.
-/

namespace Unseal

namespace Node

theorem lookup_entry_cons (m k : Name) (y : Node) (rest : List (Name × Node)) :
    ((k, y) :: rest).lookup m = if m = k then some y else rest.lookup m := by
  by_cases h : m = k
  · simp [h]
  · have : (m == k) = false := by simpa using h
    simp [List.lookup_cons, h, this]

theorem lookup_setEntry (n m : Name) (x : Node) (entries : List (Name × Node)) :
    (setEntry n x entries).lookup m = if m = n then some x else entries.lookup m := by
  induction entries with
  | nil => rw [setEntry, lookup_entry_cons]
  | cons e rest ih =>
    obtain ⟨k, y⟩ := e
    rw [setEntry]
    split
    · next hk =>
      subst hk
      rw [lookup_entry_cons, lookup_entry_cons]
      split <;> rfl
    · next hk =>
      rw [lookup_entry_cons, lookup_entry_cons, ih]
      by_cases h : m = n
      · subst h
        rw [if_neg (Ne.symm hk)]
        simp
      · simp [h]

theorem lookup_dropEntry (n m : Name) (entries : List (Name × Node)) :
    (dropEntry n entries).lookup m = if m = n then none else entries.lookup m := by
  induction entries with
  | nil => simp [dropEntry]
  | cons e rest ih =>
    obtain ⟨k, y⟩ := e
    rw [dropEntry] at ih ⊢
    by_cases hk : k = n
    · subst hk
      rw [List.filter_cons_of_neg (by simp), ih, lookup_entry_cons]
      split <;> rfl
    · rw [List.filter_cons_of_pos (by simpa using hk), lookup_entry_cons, lookup_entry_cons, ih]
      by_cases h : m = n
      · subst h
        rw [if_neg (Ne.symm hk)]
        simp
      · simp [h]

theorem at?_of_at?_edit {f : List (Name × Node) → List (Name × Node)}
    (hf : ∀ entries m x, (f entries).lookup m = some x → entries.lookup m = some x)
    {loc place : Location} {x y : Node} (h : (x.edit f loc).at? place = some y) :
    ∃ y', x.at? place = some y' ∧ y'.item = y.item := by
  induction loc generalizing x place with
  | nil =>
    cases x with
    | file content => exact ⟨y, h, rfl⟩
    | link target => exact ⟨y, h, rfl⟩
    | directory entries =>
      cases place with
      | nil =>
        obtain rfl : Node.directory (f entries) = y := Option.some.inj h
        exact ⟨_, rfl, rfl⟩
      | cons m place =>
        simp only [edit, at?, child?] at h ⊢
        cases hm : (f entries).lookup m with
        | none => simp [hm] at h
        | some z =>
          rw [hm] at h
          rw [hf entries m z hm]
          exact ⟨y, h, rfl⟩
  | cons n loc ih =>
    cases x with
    | file content => exact ⟨y, h, rfl⟩
    | link target => exact ⟨y, h, rfl⟩
    | directory entries =>
      cases place with
      | nil =>
        obtain rfl := Option.some.inj h
        exact ⟨_, rfl, rfl⟩
      | cons m place =>
        simp only [edit, at?, child?, lookup_map_edit] at h ⊢
        cases hm : entries.lookup m with
        | none => simp [hm] at h
        | some z =>
          simp only [hm, Option.map_some] at h
          split at h
          · exact ih h
          · exact ⟨y, h, rfl⟩

end Node

namespace FileSystem

variable {fs : FileSystem} {loc : Location} {n : Name}

theorem look_directory_iff :
    fs.look loc = some .directory ↔ ∃ entries, fs.root.at? loc = some (.directory entries) := by
  rw [look, Option.map_eq_some_iff]
  refine ⟨?_, ?_⟩
  · intro h
    obtain ⟨x, hx, hitem⟩ := h
    cases x with
    | directory entries => exact ⟨entries, hx⟩
    | file content => cases hitem
    | link target => cases hitem
  · intro h
    obtain ⟨entries, h⟩ := h
    exact ⟨_, h, rfl⟩

/-- Above something there is a directory. -/
theorem look_above {rest : Location} {item : Item} (h : fs.look (loc ++ n :: rest) = some item) :
    fs.look loc = some .directory := by
  rw [look, Node.at?_append] at h
  cases hx : fs.root.at? loc with
  | none => simp [hx] at h
  | some x =>
    cases x with
    | directory entries => exact look_directory_iff.2 ⟨entries, hx⟩
    | file content => simp [hx, Node.at?, Node.child?] at h
    | link target => simp [hx, Node.at?, Node.child?] at h

theorem look_ancestor {place : Location} (hdir : fs.look loc = some .directory) (h : place <+: loc) :
    fs.look place = some .directory := by
  obtain ⟨rest, rfl⟩ := h
  cases rest with
  | nil => rwa [List.append_nil] at hdir
  | cons n rest => exact look_above hdir

theorem look_below {rest : Location} (h : fs.look loc ≠ some .directory) (hrest : rest ≠ []) :
    fs.look (loc ++ rest) = none := by
  cases rest with
  | nil => exact absurd rfl hrest
  | cons n rest =>
    cases hitem : fs.look (loc ++ n :: rest) with
    | none => rfl
    | some item => exact absurd (look_above hitem) h

/-- One place has become this, and no other place has changed. -/
structure Sets (fs fs' : FileSystem) (place : Location) (item : Item) : Prop where
  workingDirectory : fs'.workingDirectory = fs.workingDirectory
  removed : fs'.removed = fs.removed
  self : fs'.look place = some item
  other : ∀ loc, loc ≠ place → fs'.look loc = fs.look loc

/-- Putting a file or an empty directory where no directory stands sets that place. -/
theorem put_sets {x : Node} (hdir : fs.look loc = some .directory)
    (hold : fs.look (loc ++ [n]) ≠ some .directory) (hx : ∀ m, x.child? m = none) :
    Sets fs (fs.put loc n x) (loc ++ [n]) x.item := by
  obtain ⟨entries, hentries⟩ := look_directory_iff.1 hdir
  have hbelow : ∀ m rest, (fs.put loc n x).look (loc ++ m :: rest) =
      if m = n then (x.at? rest).map Node.item else fs.look (loc ++ m :: rest) := by
    intro m rest
    rw [put, look_edit_append hentries, look, Node.at?_append, hentries, Option.bind_some]
    simp only [Node.at?, Node.child?, Node.lookup_setEntry]
    by_cases hm : m = n <;> simp [hm]
  refine ⟨rfl, rfl, ?_, ?_⟩
  · rw [hbelow, if_pos rfl]
    rfl
  · intro place hplace
    -- The change is seen only below the directory, and there only under the name that is put.
    by_cases hpre : loc <+: place
    · obtain ⟨rest, rfl⟩ := hpre
      cases rest with
      | nil => rw [List.append_nil, put, look_edit (.inr rfl)]
      | cons m rest =>
        rw [hbelow]
        split
        · next hm =>
          subst hm
          have hrest : rest ≠ [] := by
            intro h
            subst h
            exact hplace rfl
          have hnone := look_below hold hrest
          rw [List.append_assoc, List.singleton_append] at hnone
          rw [hnone]
          cases rest with
          | nil => exact absurd rfl hrest
          | cons k rest => simp [Node.at?, hx k]
        · rfl
    · exact look_edit (.inl hpre) fs

end FileSystem

/-- The one may have become the other while nothing is removed: only a file can have changed. -/
def Item.Becomes : Item → Item → Prop
  | .file _, .file _ => True
  | a, b => a = b

namespace Item

theorem Becomes.refl (a : Item) : a.Becomes a := by
  cases a <;> simp [Becomes]

theorem Becomes.trans {a b c : Item} (h : a.Becomes b) (h' : b.Becomes c) : a.Becomes c := by
  cases a <;> cases b <;> cases c <;> simp_all [Becomes]

end Item

/-- Whatever is seen in the one way is seen in the other and is of its kind there. -/
def Keeps (look look' : Location → Option Item) : Prop :=
  ∀ loc item, look loc = some item → ∃ item', look' loc = some item' ∧ item.Becomes item'

namespace Keeps

variable {look look' : Location → Option Item} {loc : Location}

theorem of_eq (h : ∀ loc item, look loc = some item → look' loc = some item) : Keeps look look' :=
  fun loc item hitem => ⟨item, h loc item hitem, .refl item⟩

theorem directory (h : Keeps look look') (hloc : look loc = some .directory) :
    look' loc = some .directory := by
  obtain ⟨item, hitem, hbecomes⟩ := h loc _ hloc
  cases item <;> simp_all [Item.Becomes]

theorem link (h : Keeps look look') {target : Path} (hloc : look loc = some (.link target)) :
    look' loc = some (.link target) := by
  obtain ⟨item, hitem, hbecomes⟩ := h loc _ hloc
  cases item <;> simp_all [Item.Becomes]

theorem other (h : Keeps look look') {item : Item} (hloc : look loc = some item)
    (hlink : ∀ target, item ≠ .link target) :
    ∃ item', look' loc = some item' ∧ ∀ target, item' ≠ .link target := by
  obtain ⟨item', hitem, hbecomes⟩ := h loc _ hloc
  refine ⟨item', hitem, ?_⟩
  rintro target rfl
  cases item with
  | link target' => exact hlink target' rfl
  | file content | directory => cases hbecomes

end Keeps

namespace FileSystem

/-- Nothing is gone, and everything is still of its kind. -/
structure Grows (fs fs' : FileSystem) : Prop where
  workingDirectory : fs'.workingDirectory = fs.workingDirectory
  removed : fs'.removed = fs.removed
  kept : Keeps fs.look fs'.look

namespace Grows

variable {fs fs' fs'' : FileSystem} {loc : Location}

theorem refl (fs : FileSystem) : Grows fs fs := ⟨rfl, rfl, .of_eq fun _ _ h => h⟩

theorem trans (h : Grows fs fs') (h' : Grows fs' fs'') : Grows fs fs'' := by
  refine ⟨h'.workingDirectory.trans h.workingDirectory, h'.removed.trans h.removed,
    fun loc item hitem => ?_⟩
  obtain ⟨item', hitem', hbecomes⟩ := h.kept loc item hitem
  obtain ⟨item'', hitem'', hbecomes'⟩ := h'.kept loc item' hitem'
  exact ⟨item'', hitem'', hbecomes.trans hbecomes'⟩

theorem directory (h : Grows fs fs') (hloc : fs.look loc = some .directory) :
    fs'.look loc = some .directory :=
  h.kept.directory hloc

end Grows

theorem Sets.grows {fs fs' : FileSystem} {place : Location} {item : Item}
    (h : Sets fs fs' place item) (hold : ∀ old, fs.look place = some old → old.Becomes item) :
    Grows fs fs' := by
  refine ⟨h.workingDirectory, h.removed, fun loc old hlook => ?_⟩
  by_cases hloc : loc = place
  · subst hloc
    exact ⟨item, h.self, hold old hlook⟩
  · exact ⟨old, (h.other loc hloc).trans hlook, .refl old⟩

/-- Whatever stands in the one stands in the other as well, and the directory that is worked in is
the same: in the one it can be removed that is there in the other. -/
structure Part (fs whole : FileSystem) : Prop where
  look : ∀ loc item, fs.look loc = some item → whole.look loc = some item
  works : ∃ lost, whole.workingDirectory = fs.workingDirectory ++ lost ∧
    fs.removed = whole.removed + lost.length ∧
    (lost ≠ [] → whole.look whole.workingDirectory = some .directory)

namespace Part

variable {fs fs' whole : FileSystem}

theorem refl (fs : FileSystem) : Part fs fs :=
  ⟨fun _ _ h => h, [], (List.append_nil _).symm, rfl, fun h => absurd rfl h⟩

theorem trans (h : Part fs fs') (h' : Part fs' whole) : Part fs whole := by
  obtain ⟨lost, hplace, hremoved, hthere⟩ := h.works
  obtain ⟨lost', hplace', hremoved', hthere'⟩ := h'.works
  refine ⟨fun loc item hitem => h'.look loc item (h.look loc item hitem), lost ++ lost', ?_, ?_,
    fun hne => ?_⟩
  · rw [hplace', hplace, List.append_assoc]
  · rw [hremoved, hremoved', List.length_append, Nat.add_right_comm, Nat.add_assoc]
  · by_cases hlost : lost' = []
    · rw [hlost, List.append_nil] at hne hplace'
      rw [hplace']
      exact h'.look _ _ (hthere hne)
    · exact hthere' hlost

end Part

theorem look_erase_eq (fs : FileSystem) (loc : Location) (n : Name) :
    (fs.erase loc n).look = (fs.edit (Node.dropEntry n) loc).look := by
  unfold erase
  dsimp only
  split <;> rfl

theorem look_clear_eq (fs : FileSystem) (loc : Location) :
    (fs.clear loc).look = (fs.edit (fun _ => []) loc).look := by
  unfold clear
  dsimp only
  split <;> rfl

theorem root_clear (fs : FileSystem) (loc : Location) :
    (fs.clear loc).root = fs.root.edit (fun _ => []) loc := by
  unfold clear
  dsimp only
  split <;> rfl

theorem clear_stays (fs : FileSystem) (h : ¬ loc <+: fs.workingDirectory) :
    (fs.clear loc).workingDirectory = fs.workingDirectory ∧ (fs.clear loc).removed = fs.removed := by
  have hworks : fs.worksIn loc = false := by simp [worksIn, h]
  rw [clear, hworks]
  exact ⟨rfl, rfl⟩

theorem erase_stays (fs : FileSystem) (h : ¬ loc ++ [n] <+: fs.workingDirectory) :
    (fs.erase loc n).workingDirectory = fs.workingDirectory ∧
      (fs.erase loc n).removed = fs.removed := by
  have hworks : fs.worksIn (loc ++ [n]) = false := by simp [worksIn, h]
  rw [erase, hworks]
  exact ⟨rfl, rfl⟩

theorem part_of_edit {f : List (Name × Node) → List (Name × Node)}
    (hf : ∀ entries m x, (f entries).lookup m = some x → entries.lookup m = some x)
    (fs : FileSystem) (loc : Location) : Part (fs.edit f loc) fs := by
  refine ⟨fun place item h => ?_, (Part.refl fs).works⟩
  obtain ⟨y, hy, rfl⟩ := Option.map_eq_some_iff.1 h
  obtain ⟨y', hy', hitem⟩ := Node.at?_of_at?_edit hf hy
  rw [look, hy', Option.map_some, hitem]

theorem worksIn_iff {fs : FileSystem} {loc : Location} : fs.worksIn loc = true ↔
    loc <+: fs.workingDirectory ∧ fs.look fs.workingDirectory = some .directory := by
  simp [worksIn]

theorem Part.strand {fs whole : FileSystem} {loc : Location} (h : Part fs whole)
    (hplace : fs.workingDirectory = whole.workingDirectory) (hremoved : fs.removed = whole.removed)
    (hworks : loc <+: whole.workingDirectory ∧
      whole.look whole.workingDirectory = some .directory) : Part (fs.strand loc) whole := by
  obtain ⟨⟨lost, hlost⟩, hthere⟩ := hworks
  refine ⟨h.look, lost, hlost.symm, ?_, fun _ => hthere⟩
  show fs.removed + (fs.workingDirectory.length - loc.length) = _
  rw [hremoved, hplace, ← hlost, List.length_append, Nat.add_sub_cancel_left]

theorem part_of_erase (fs : FileSystem) (loc : Location) (n : Name) :
    Part (fs.erase loc n) fs := by
  have hpart : Part (fs.edit (Node.dropEntry n) loc) fs := by
    refine part_of_edit (fun entries m x h => ?_) fs loc
    rw [Node.lookup_dropEntry] at h
    split at h
    · cases h
    · exact h
  unfold erase
  dsimp only
  split
  · next hworks =>
    obtain ⟨hbelow, hthere⟩ := worksIn_iff.1 hworks
    exact hpart.strand rfl rfl ⟨(List.prefix_append loc [n]).trans hbelow, hthere⟩
  · exact hpart

theorem part_of_clear (fs : FileSystem) (loc : Location) : Part (fs.clear loc) fs := by
  have hpart : Part (fs.edit (fun _ => []) loc) fs := part_of_edit (fun _ _ _ h => by cases h) fs loc
  unfold clear
  dsimp only
  split
  · next hworks => exact hpart.strand rfl rfl (worksIn_iff.1 hworks)
  · exact hpart

theorem look_erase (fs : FileSystem) (loc : Location) (n : Name) :
    (fs.erase loc n).look (loc ++ [n]) = none := by
  rw [look_erase_eq]
  by_cases hdir : fs.look loc = some .directory
  · obtain ⟨entries, hentries⟩ := look_directory_iff.1 hdir
    rw [look_edit_append hentries]
    simp [Node.at?, Node.child?, Node.lookup_dropEntry]
  · refine look_below ?_ (List.cons_ne_nil n [])
    rwa [look_edit (.inr rfl)]

theorem look_erase_away {loc place : Location} {n : Name} (h : ¬ loc ++ [n] <+: place)
    (fs : FileSystem) : (fs.erase loc n).look place = fs.look place := by
  rw [look_erase_eq]
  by_cases hpre : loc <+: place
  · obtain ⟨rest, rfl⟩ := hpre
    cases rest with
    | nil => exact look_edit (.inr (List.append_nil loc).symm) fs
    | cons m rest =>
      have hm : m ≠ n := by
        rintro rfl
        exact h ⟨rest, by simp⟩
      by_cases hdir : fs.look loc = some .directory
      · obtain ⟨entries, hentries⟩ := look_directory_iff.1 hdir
        rw [look_edit_append hentries, look, Node.at?_append, hentries, Option.bind_some]
        simp only [Node.at?, Node.child?, Node.lookup_dropEntry, if_neg hm]
      · have hdir' : (fs.edit (Node.dropEntry n) loc).look loc ≠ some .directory := by
          rwa [look_edit (.inr rfl)]
        rw [look_below hdir (List.cons_ne_nil m rest), look_below hdir' (List.cons_ne_nil m rest)]
  · exact look_edit (.inl hpre) fs

end FileSystem

end Unseal
