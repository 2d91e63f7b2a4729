import Mathlib.Data.List.Lex
import Mathlib.Data.List.Sort
import Unseal.Walk
import Unseal.Proofs.FileSystem.Paths
/-
  Walks — what is met below a directory, and where

  A walk is told by one derivation that follows its steps: at every name either a
  file is met or a directory is entered (`Walks`). All that is said of a walk
  goes by induction on it: entries are met in the order of their paths, a directory
  is met before what is in it, and the path of an entry leads to what was met. As
  they are in order, their paths differ, and what a walk has met is told by what
  its entries are.

  What is proved:
    1. `ordered_sortNames` — the names of a directory are met in order, each once.
    2. `walks_of_discover` — what is discovered below a directory is such a walk;
       `walkNames_ok`, `enter_ok` — what a walk has done at each name.
    3. `Walks.ordered`, `Walks.parentsFirst` — the entries of a walk are in the order
       of their paths, and the directories on the way to one are met before it.
    4. `Walks.located` — the path of an entry leads to what was met.
    5. `listing_of_discover`, `eq_of_ordered` — all of this holds of what is
       discovered, and entries in order are told by their members.
-/

namespace Unseal

/-! ## Names in order -/

theorem Name.ext_text {n m : Name} (h : n.text = m.text) : n = m := by
  cases n
  cases m
  cases h
  rfl

theorem mem_insertName {n m : Name} {names : List Name} :
    m ∈ insertName n names ↔ m = n ∨ m ∈ names := by
  induction names with
  | nil => simp [insertName]
  | cons k rest ih =>
    rw [insertName]
    split
    · next h => simp [h]
    · split
      · simp
      · rw [List.mem_cons, ih, List.mem_cons]
        exact ⟨fun h => by rcases h with h | h | h <;> simp [h],
          fun h => by rcases h with h | h | h <;> simp [h]⟩

theorem ordered_insertName {n : Name} {names : List Name}
    (h : names.Pairwise fun a b => a.text < b.text) :
    (insertName n names).Pairwise fun a b => a.text < b.text := by
  induction names with
  | nil => simp [insertName]
  | cons m rest ih =>
    obtain ⟨hm, hrest⟩ := List.pairwise_cons.1 h
    rw [insertName]
    split
    · exact h
    · next hne =>
      split
      · next hlt =>
        refine List.pairwise_cons.2 ⟨fun k hk => ?_, h⟩
        rcases List.mem_cons.1 hk with rfl | hk
        · exact hlt
        · exact String.lt_trans hlt (hm k hk)
      · next hge =>
        refine List.pairwise_cons.2 ⟨fun k hk => ?_, ih hrest⟩
        rcases mem_insertName.1 hk with rfl | hk
        · apply Decidable.byContradiction
          intro hle
          apply hne
          exact Name.ext_text (String.le_antisymm (String.not_lt.1 hle) (String.not_lt.1 hge))
        · exact hm k hk

/-- The names of a directory are met in order, each once. -/
theorem ordered_sortNames (names : List Name) :
    (sortNames names).Pairwise fun n m => n.text < m.text := by
  induction names with
  | nil => exact List.Pairwise.nil
  | cons n names ih => exact ordered_insertName ih

theorem FileSystem.ordered_names (fs : FileSystem) (loc : Location) :
    (fs.names loc).Pairwise fun n m => n.text < m.text := by
  unfold names
  split
  · exact ordered_sortNames _
  · exact List.Pairwise.nil

instance : Std.Asymm fun n m : Name => n.text < m.text := ⟨fun _ _ => String.lt_asymm⟩

namespace Entry

/-- The path of the one comes before that of the other, name by name; the beginning of a path comes
before the path. -/
def Before (a b : Entry) : Prop := List.Lex (fun n m => n.text < m.text) a.path b.path

instance : Std.Asymm Before :=
  ⟨fun a b => Std.Asymm.asymm (r := List.Lex fun n m : Name => n.text < m.text) a.path b.path⟩

variable {a b : Entry} {way more more' : List Name} {n m : Name}

theorem Before.ne (h : a.Before b) : a.path ≠ b.path := by
  intro heq
  have hback : b.Before a := by
    rw [Before, heq] at h ⊢
    exact h
  exact Std.Asymm.asymm a b h hback

theorem before_of_names (ha : a.path = way ++ n :: more) (hb : b.path = way ++ m :: more')
    (h : n.text < m.text) : a.Before b := by
  rw [Before, ha, hb]
  exact List.Lex.append_left (fun n m : Name => n.text < m.text) (.rel h) way

theorem before_of_below (hb : b.path = a.path ++ m :: more) : a.Before b := by
  rw [Before, hb, ← List.append_nil a.path, List.append_assoc]
  exact List.Lex.append_left _ .nil a.path

end Entry

/-! ## Steps of a walk -/

/-- The walk of some names in a directory has met these entries. -/
inductive Walks (fs : FileSystem) :
    Visit → List Visit → List Name → List Name → List Entry → Prop where
  | stop {here inside way names} : Walks fs here inside way names []
  | file {here inside way n names rest} (henter : fs.enter here inside n = .ok none)
    (hrest : Walks fs here inside way names rest) :
    Walks fs here inside way (n :: names) (⟨way ++ [n], .ofFile n⟩ :: rest)
  | directory {here inside way n names visit entries rest}
    (henter : fs.enter here inside n = .ok (some visit))
    (hbelow : Walks fs visit (here :: inside) (way ++ [n]) (fs.names visit.location) entries)
    (hrest : Walks fs here inside way names rest) :
    Walks fs here inside way (n :: names) (⟨way ++ [n], .directory⟩ :: entries ++ rest)

namespace FileSystem

variable {fs : FileSystem} {here : Visit} {inside : List Visit} {way names : List Name}
  {entries : List Entry}

theorem walks_of_walkNames
    {walk : Visit → List Visit → List Name → Except WalkFault (List Entry)}
    (hwalk : ∀ here inside way entries, walk here inside way = .ok entries →
      Walks fs here inside way (fs.names here.location) entries)
    (h : fs.walkNames walk here inside way names = .ok entries) :
    Walks fs here inside way names entries := by
  induction names generalizing entries with
  | nil =>
    cases h
    exact .stop
  | cons n names ih =>
    unfold walkNames at h
    split at h
    · cases h
    · next henter =>
      simp only [bind_ok_iff, pure_ok_iff] at h
      obtain ⟨rest, hrest, rfl⟩ := h
      exact .file henter (ih hrest)
    · next visit henter =>
      simp only [bind_ok_iff, pure_ok_iff] at h
      obtain ⟨below, hbelow, rest, hrest, rfl⟩ := h
      exact .directory henter (hwalk _ _ _ _ hbelow) (ih hrest)

theorem walks_of_walkDirectory {depth : Nat}
    (h : fs.walkDirectory depth here inside way = .ok entries) :
    Walks fs here inside way (fs.names here.location) entries := by
  induction depth generalizing here inside way entries with
  | zero =>
    cases h
    exact .stop
  | succ depth ih => exact walks_of_walkNames (fun _ _ _ _ hbelow => ih hbelow) h

/-- What is discovered below a directory is met by a walk. -/
theorem walks_of_discover {root : Path} {place : Location} (hplace : fs.locate root = .ok place)
    (h : fs.discover root = .ok entries) :
    Walks fs ⟨root, place⟩ [] [] (fs.names place) entries := by
  unfold discover at h
  split at h
  · cases h
    exact .stop
  · rw [hplace] at h
    dsimp only at h
    split at h
    · exact walks_of_walkDirectory h
    · cases h
      exact .stop

/-- A walk of names that comes to its end has been at each of them. -/
theorem walkNames_ok
    {walk : Visit → List Visit → List Name → Except WalkFault (List Entry)}
    (h : fs.walkNames walk here inside way names = .ok entries) {n : Name} (hn : n ∈ names) :
    (fs.enter here inside n = .ok none ∧ ⟨way ++ [n], .ofFile n⟩ ∈ entries) ∨
    ∃ visit below, fs.enter here inside n = .ok (some visit) ∧
      walk visit (here :: inside) (way ++ [n]) = .ok below ∧
      ⟨way ++ [n], .directory⟩ ∈ entries ∧ below ⊆ entries := by
  induction names generalizing entries with
  | nil => cases hn
  | cons m names ih =>
    rw [walkNames] at h
    split at h
    · cases h
    · next henter =>
      obtain ⟨more, hmore, h⟩ := bind_ok_iff.1 h
      obtain rfl := pure_ok_iff.1 h
      rcases List.mem_cons.1 hn with rfl | hn
      · exact .inl ⟨henter, List.mem_cons_self⟩
      · refine (ih hmore hn).imp ?_ ?_
        · exact fun hfile => ⟨hfile.1, List.mem_cons_of_mem _ hfile.2⟩
        · intro hvisit
          obtain ⟨visit, below, hvisit, hbelow, he, hsubset⟩ := hvisit
          exact ⟨visit, below, hvisit, hbelow, List.mem_cons_of_mem _ he,
            List.subset_cons_of_subset _ hsubset⟩
    · next visit henter =>
      obtain ⟨below, hbelow, h⟩ := bind_ok_iff.1 h
      obtain ⟨more, hmore, h⟩ := bind_ok_iff.1 h
      obtain rfl := pure_ok_iff.1 h
      rcases List.mem_cons.1 hn with rfl | hn
      · refine .inr ⟨visit, below, henter, hbelow, ?_, ?_⟩
        · exact List.mem_append_left _ List.mem_cons_self
        · exact List.subset_append_of_subset_left _ (List.subset_cons_self _ _)
      · refine (ih hmore hn).imp ?_ ?_
        · exact fun hfile => ⟨hfile.1, List.mem_append_right _ hfile.2⟩
        · intro hvisit
          obtain ⟨visit', below', hvisit, hbelow', he, hsubset⟩ := hvisit
          exact ⟨visit', below', hvisit, hbelow', List.mem_append_right _ he,
            List.subset_append_of_subset_right _ hsubset⟩

/-- All that a walk can do at a name: pass by a file, enter a directory, or follow a link, to a
directory that it is not inside of or to something else. -/
theorem enter_ok {n : Name} {found : Option Visit} (h : fs.enter here inside n = .ok found) :
    (∃ content, fs.look (here.location ++ [n]) = some (.file content) ∧ found = none) ∨
    (fs.look (here.location ++ [n]) = some .directory ∧ (here.path.join n).isTooLong = false ∧
      found = some ⟨here.path.join n, here.location ++ [n]⟩) ∨
    ∃ target next, fs.look (here.location ++ [n]) = some (.link target) ∧
      fs.locate (here.path.join n) = .ok next ∧
      (fs.look next ≠ some .directory ∧ found = none ∨
        fs.look next = some .directory ∧ next ∉ (here :: inside).map (·.location) ∧
          found = some ⟨here.path.join n, next⟩) := by
  unfold enter at h
  dsimp only at h
  split at h
  · cases h
  · next content hfile =>
    cases h
    exact .inl ⟨content, hfile, rfl⟩
  · next hdir =>
    split at h
    · cases h
    · next hshort =>
      cases h
      exact .inr (.inl ⟨hdir, Bool.not_eq_true _ ▸ hshort, rfl⟩)
  · next target hlink =>
    split at h
    · cases h
    · next next hlocate =>
      refine .inr (.inr ⟨target, next, hlink, hlocate, ?_⟩)
      split at h
      · next hdir =>
        split at h
        · cases h
        · next hnew =>
          cases h
          refine .inr ⟨hdir, ?_, rfl⟩
          intro hmem
          obtain ⟨around, haround, hlocation⟩ := List.mem_map.1 hmem
          exact List.find?_eq_none.1 hnew around haround (by simpa using hlocation)
      · next hdir =>
        cases h
        exact .inl ⟨hdir, rfl⟩

theorem enter_none {n : Name} (h : fs.enter here inside n = .ok none)
    (hblank : here.path.segments ≠ [.blank]) (hhere : fs.locate here.path = .ok here.location) :
    ∃ loc, fs.PathTo .thing (here.path.join n) (.found loc) := by
  rcases enter_ok h with ⟨content, hfile, _⟩ | ⟨_, _, hfound⟩ | ⟨_, next, _, hlocate, _⟩
  · have hway := leadsTo_names .thing hfile (by simp)
    exact ⟨_, (locate_ok_iff.1 hhere).2.extend hblank hway (by simp)⟩
  · cases hfound
  · exact ⟨next, (locate_ok_iff.1 hlocate).2⟩

theorem enter_some {n : Name} {visit : Visit} (h : fs.enter here inside n = .ok (some visit))
    (hblank : here.path.segments ≠ [.blank]) (hhere : fs.locate here.path = .ok here.location) :
    visit.path = here.path.join n ∧ fs.locate visit.path = .ok visit.location ∧
      fs.look visit.location = some .directory := by
  obtain ⟨hcheck, hpath⟩ := locate_ok_iff.1 hhere
  rcases enter_ok h with ⟨_, _, hfound⟩ | ⟨hdir, hshort, hfound⟩ |
    ⟨_, next, _, hlocate, ⟨_, hfound⟩ | ⟨hdir, _, hfound⟩⟩
  · cases hfound
  · cases hfound
    have hnext := hpath.extend hblank (leadsTo_names .thing hdir (by simp)) (by simp)
    exact ⟨rfl, locate_ok_iff.2 ⟨Path.check_extend hcheck hshort, hnext⟩, hdir⟩
  · cases hfound
  · cases hfound
    exact ⟨rfl, hlocate, hdir⟩

end FileSystem

/-! ## What a walk has met -/

theorem ofFile_ne_directory (n : Name) : EntryKind.ofFile n ≠ .directory := by
  unfold EntryKind.ofFile
  split <;> simp

/-- The directory around each entry is among those met before. -/
def ParentsFirst (met : List (List Name)) : List Entry → Prop
  | [] => True
  | e :: rest =>
    e.path.dropLast ∈ met ∧ ParentsFirst (if e.kind = .directory then e.path :: met else met) rest

namespace ParentsFirst

variable {met met' : List (List Name)} {entries rest : List Entry}

theorem mono (hmet : met ⊆ met') (h : ParentsFirst met entries) : ParentsFirst met' entries := by
  induction entries generalizing met met' with
  | nil => trivial
  | cons e rest ih =>
    refine ⟨hmet h.1, ih ?_ h.2⟩
    split
    · exact List.cons_subset_cons e.path hmet
    · exact hmet

theorem append (h : ParentsFirst met entries) (h' : ParentsFirst met rest) :
    ParentsFirst met (entries ++ rest) := by
  induction entries generalizing met with
  | nil => exact h'
  | cons e entries ih =>
    refine ⟨h.1, ih h.2 (h'.mono ?_)⟩
    split
    · exact List.subset_cons_self e.path met
    · exact List.Subset.refl met

theorem directories (h : ParentsFirst met entries) :
    ParentsFirst met (entries.filter (·.kind = .directory)) := by
  induction entries generalizing met with
  | nil => trivial
  | cons e rest ih =>
    by_cases hkind : e.kind = .directory
    · rw [List.filter_cons_of_pos (by simpa using hkind)]
      exact ⟨h.1, ih h.2⟩
    · have hrest := h.2
      rw [if_neg hkind] at hrest
      rw [List.filter_cons_of_neg (by simpa using hkind)]
      exact ih hrest

theorem mem (h : ParentsFirst met entries) {e : Entry} (he : e ∈ entries) :
    e.path.dropLast ∈ met ∨ ∃ d ∈ entries, d.kind = .directory ∧ d.path = e.path.dropLast := by
  induction entries generalizing met with
  | nil => cases he
  | cons e' rest ih =>
    rcases List.mem_cons.1 he with rfl | he
    · exact .inl h.1
    · rcases ih h.2 he with hmet | ⟨d, hd, hkind⟩
      · split at hmet
        · next hkind =>
          rcases List.mem_cons.1 hmet with hpath | hmet
          · exact .inr ⟨e', List.mem_cons_self, hkind, hpath.symm⟩
          · exact .inl hmet
        · exact .inl hmet
      · exact .inr ⟨d, List.mem_cons_of_mem e' hd, hkind⟩

end ParentsFirst

namespace Walks

variable {fs : FileSystem} {here : Visit} {inside : List Visit} {way names : List Name}
  {entries : List Entry}

theorem path_below (h : Walks fs here inside way names entries) {e : Entry} (he : e ∈ entries) :
    ∃ n ∈ names, ∃ rest, e.path = way ++ n :: rest := by
  induction h with
  | stop => cases he
  | @file here inside way n names rest _ _ ih =>
    rcases List.mem_cons.1 he with rfl | he
    · exact ⟨n, List.mem_cons_self, [], rfl⟩
    · obtain ⟨m, hm, hpath⟩ := ih he
      exact ⟨m, List.mem_cons_of_mem n hm, hpath⟩
  | @directory here inside way n names visit entries rest _ _ _ ihbelow ihrest =>
    rcases List.mem_append.1 he with he | he
    · rcases List.mem_cons.1 he with rfl | he
      · exact ⟨n, List.mem_cons_self, [], rfl⟩
      · obtain ⟨m, _, more, hpath⟩ := ihbelow he
        exact ⟨n, List.mem_cons_self, m :: more, by rw [hpath, ← List.append_cons]⟩
    · obtain ⟨m, hm, hpath⟩ := ihrest he
      exact ⟨m, List.mem_cons_of_mem n hm, hpath⟩

theorem ordered (h : Walks fs here inside way names entries)
    (hnames : names.Pairwise fun n m => n.text < m.text) : entries.Pairwise Entry.Before := by
  induction h with
  | stop => exact List.Pairwise.nil
  | @file here inside way n names rest _ hrest ih =>
    obtain ⟨hn, hnames⟩ := List.pairwise_cons.1 hnames
    refine List.pairwise_cons.2 ⟨fun e he => ?_, ih hnames⟩
    obtain ⟨m, hm, more, hpath⟩ := hrest.path_below he
    exact Entry.before_of_names rfl hpath (hn m hm)
  | @directory here inside way n names visit entries rest _ hbelow hrest ihbelow ihrest =>
    obtain ⟨hn, hnames⟩ := List.pairwise_cons.1 hnames
    have hinner := ihbelow (fs.ordered_names visit.location)
    refine List.pairwise_append.2 ⟨List.pairwise_cons.2 ⟨fun e he => ?_, hinner⟩, ihrest hnames,
      fun a ha b hb => ?_⟩
    · obtain ⟨m, _, more, hpath⟩ := hbelow.path_below he
      exact Entry.before_of_below hpath
    · -- Below two names of one directory the paths are in the order of these names.
      obtain ⟨m, hm, more, hpath⟩ := hrest.path_below hb
      have hfirst : ∃ more', a.path = way ++ n :: more' := by
        rcases List.mem_cons.1 ha with rfl | ha
        · exact ⟨[], rfl⟩
        · obtain ⟨k, _, more', hpath'⟩ := hbelow.path_below ha
          exact ⟨k :: more', by rw [hpath', ← List.append_cons]⟩
      obtain ⟨more', hpath'⟩ := hfirst
      exact Entry.before_of_names hpath' hpath (hn m hm)

theorem parentsFirst (h : Walks fs here inside way names entries) {met : List (List Name)}
    (hmet : way ∈ met) : ParentsFirst met entries := by
  induction h generalizing met with
  | stop => trivial
  | file _ _ ih =>
    refine ⟨by simpa using hmet, ?_⟩
    split
    · exact ih (List.mem_cons_of_mem _ hmet)
    · exact ih hmet
  | directory _ _ _ ihbelow ihrest =>
    refine ⟨by simpa using hmet, ?_⟩
    rw [if_pos rfl]
    exact (ihbelow List.mem_cons_self).append (ihrest (List.mem_cons_of_mem _ hmet))

theorem named (h : Walks fs here inside way names entries) {e : Entry} (he : e ∈ entries) :
    ∃ above n, e.path = above ++ [n] ∧ (e.kind = .directory ∨ e.kind = .ofFile n) := by
  induction h with
  | stop => cases he
  | @file here inside way n names rest _ _ ih =>
    rcases List.mem_cons.1 he with rfl | he
    · exact ⟨way, n, rfl, .inr rfl⟩
    · exact ih he
  | @directory here inside way n names visit entries rest _ _ _ ihbelow ihrest =>
    rcases List.mem_append.1 he with he | he
    · rcases List.mem_cons.1 he with rfl | he
      · exact ⟨way, n, rfl, .inl rfl⟩
      · exact ihbelow he
    · exact ihrest he

/-- The path of an entry leads somewhere, and that of a directory to a directory. -/
theorem located {root : Path} (h : Walks fs here inside way names entries)
    (hroot : root.segments ≠ [.blank]) (hpath : here.path = root.extend way)
    (hhere : fs.locate here.path = .ok here.location) {e : Entry} (he : e ∈ entries) :
    (∃ loc, fs.PathTo .thing (root.extend e.path) (.found loc)) ∧
      (e.kind = .directory → fs.isDirectory (root.extend e.path) = true) := by
  induction h with
  | stop => cases he
  | @file here inside way n names rest henter _ ih =>
    rcases List.mem_cons.1 he with rfl | he
    · obtain ⟨loc, hloc⟩ := FileSystem.enter_none henter (hpath ▸ Path.extend_ne_blank hroot way) hhere
      rw [Path.join, hpath, ← Path.extend_append] at hloc
      exact ⟨⟨loc, hloc⟩, fun hkind => absurd hkind (ofFile_ne_directory n)⟩
    · exact ih hpath hhere he
  | @directory here inside way n names visit entries rest henter _ _ ihbelow ihrest =>
    obtain ⟨hvisit, hlocate, hdir⟩ :=
      FileSystem.enter_some henter (hpath ▸ Path.extend_ne_blank hroot way) hhere
    rw [Path.join, hpath, ← Path.extend_append] at hvisit
    rcases List.mem_append.1 he with he | he
    · rcases List.mem_cons.1 he with rfl | he
      · rw [← hvisit]
        exact ⟨⟨_, (FileSystem.locate_ok_iff.1 hlocate).2⟩,
          fun _ => FileSystem.isDirectory_iff.2 ⟨_, hlocate, hdir⟩⟩
      · exact ihbelow hvisit hlocate he
    · exact ihrest hpath hhere he

end Walks

/-- What holds of the entries that are discovered below a directory. -/
structure Listing (fs : FileSystem) (root : Path) (entries : List Entry) : Prop where
  named : ∀ e ∈ entries, ∃ above n, e.path = above ++ [n] ∧
    (e.kind = .directory ∨ e.kind = .ofFile n)
  distinct : entries.Pairwise fun a b => a.path ≠ b.path
  parentsFirst : ParentsFirst [[]] entries
  located : ∀ e ∈ entries, ∃ loc, fs.PathTo .thing (root.extend e.path) (.found loc)
  directories : ∀ e ∈ entries, e.kind = .directory → fs.isDirectory (root.extend e.path) = true

theorem listing_nil (fs : FileSystem) (root : Path) : Listing fs root [] := by
  constructor <;> simp [ParentsFirst]

/-- What is discovered below a path is a listing of it. -/
theorem listing_of_discover {fs : FileSystem} {root : Path} {entries : List Entry}
    (hroot : root.segments ≠ [.blank]) (h : fs.discover root = .ok entries) :
    Listing fs root entries := by
  by_cases hstandard : root.isStandardInput = true
  · rw [FileSystem.discover, if_pos hstandard] at h
    cases h
    exact listing_nil fs root
  · cases hplace : fs.locate root with
    | error fault =>
      rw [FileSystem.discover, if_neg hstandard, hplace] at h
      cases h
    | ok place =>
      have hwalk := FileSystem.walks_of_discover hplace h
      have hlocated := fun e (he : e ∈ entries) =>
        hwalk.located hroot rfl hplace he
      exact ⟨fun e he => hwalk.named he, (hwalk.ordered (fs.ordered_names place)).imp Entry.Before.ne,
        hwalk.parentsFirst (List.mem_singleton_self _), fun e he => (hlocated e he).1,
        fun e he => (hlocated e he).2⟩

theorem ordered_of_discover {fs : FileSystem} {root : Path} {entries : List Entry}
    (h : fs.discover root = .ok entries) : entries.Pairwise Entry.Before := by
  cases hplace : fs.locate root with
  | ok place => exact (FileSystem.walks_of_discover hplace h).ordered (fs.ordered_names place)
  | error fault =>
    rw [FileSystem.discover, hplace] at h
    split at h <;> cases h
    exact List.Pairwise.nil

/-- Entries in the order of their paths are told by which they are. -/
theorem eq_of_ordered {entries entries' : List Entry} (h : entries.Pairwise Entry.Before)
    (h' : entries'.Pairwise Entry.Before) (hmem : ∀ e, e ∈ entries ↔ e ∈ entries') :
    entries = entries' := h.eq_of_mem_iff h' hmem

theorem Listing.eq_of_path {fs : FileSystem} {root : Path} {entries : List Entry}
    (h : Listing fs root entries) {e e' : Entry} (he : e ∈ entries) (he' : e' ∈ entries)
    (hpath : e.path = e'.path) : e = e' := by
  have hpairs : entries.Pairwise fun a b => a.path = b.path → a = b :=
    h.distinct.imp fun hne heq => absurd heq hne
  have hflip : entries.Pairwise fun a b => b.path = a.path → b = a :=
    h.distinct.imp fun hne heq => absurd heq.symm hne
  exact hpairs.forall_of_forall_of_flip (fun _ _ _ => rfl) hflip he he' hpath

end Unseal
