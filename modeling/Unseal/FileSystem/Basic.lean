import Unseal.Bytes
import Unseal.FileSystem.Path
/-
  File systems — directories, files and symbolic links

  A file system is a tree of named entries and the directory that is worked in. A
  place in it is told by the names on the way down from the root, so two places
  are the same exactly if their names are. What stands at a place is seen by
  `look`; an entry is put into a directory, taken out of it, or all entries of a
  directory are taken out, and nothing else ever changes.

  The directory that is worked in can be taken out as well. Nothing has a name in
  it then, and it has no place any more, also if another directory is put where it
  stood; but steps up still lead out of it to what is left of the way to it.

  What is proved:
    1. `look_edit` — away from the directory whose entries are changed, nothing
       is seen of the change.
    2. `look_edit_append` — below that directory the new entries are seen.
-/

namespace Unseal

/-- The names on the way from the root down to a place. -/
abbrev Location := List Name

/-- What stands at a place, with all that lies below it. -/
inductive Node where
  | file (content : Bytes)
  | link (target : Path)
  | directory (entries : List (Name × Node))

/-- What stands at a place. -/
inductive Item where
  | file (content : Bytes)
  | link (target : Path)
  | directory
  deriving DecidableEq

namespace Node

def item : Node → Item
  | .file content => .file content
  | .link target => .link target
  | .directory _ => .directory

/-- The entry of this name. -/
def child? : Node → Name → Option Node
  | .directory entries, n => entries.lookup n
  | _, _ => none

/-- What stands below a node at a place. -/
def at? (x : Node) : Location → Option Node
  | [] => some x
  | n :: loc =>
    match x.child? n with
    | some y => y.at? loc
    | none => none

/-- Changes the entries of the directory at a place; without a directory there, nothing. -/
def edit (f : List (Name × Node) → List (Name × Node)) (x : Node) : Location → Node
  | [] =>
    match x with
    | .directory entries => .directory (f entries)
    | x => x
  | n :: loc =>
    match x with
    | .directory entries =>
      .directory (entries.map fun e => if e.1 = n then (e.1, e.2.edit f loc) else e)
    | x => x

/-- The entries with this one in the place of the one of its name, or at the end. -/
def setEntry (n : Name) (x : Node) : List (Name × Node) → List (Name × Node)
  | [] => [(n, x)]
  | e :: rest => if e.1 = n then (n, x) :: rest else e :: setEntry n x rest

/-- The entries without those of this name. -/
def dropEntry (n : Name) (entries : List (Name × Node)) : List (Name × Node) :=
  entries.filter (·.1 ≠ n)

mutual

/-- The number of directories on the longest way down. -/
def height : Node → Nat
  | .directory entries => heightOf entries + 1
  | _ => 0

/-- The greatest height of an entry. -/
def heightOf : List (Name × Node) → Nat
  | [] => 0
  | (_, x) :: rest => max x.height (heightOf rest)

end

mutual

/-- All places below a node, each with what stands there; directories come before their entries. -/
def contents (loc : Location) : Node → List (Location × Item)
  | .directory entries => contentsOf loc entries
  | _ => []

/-- All places at and below the entries of the directory at a place. -/
def contentsOf (loc : Location) : List (Name × Node) → List (Location × Item)
  | [] => []
  | (n, x) :: rest => (loc ++ [n], x.item) :: x.contents (loc ++ [n]) ++ contentsOf loc rest

end

end Node

/-- The names in the order of their characters, without repetitions. -/
def insertName (n : Name) : List Name → List Name
  | [] => [n]
  | m :: rest =>
    if n = m then m :: rest
    else if n.text < m.text then n :: m :: rest
    else m :: insertName n rest

/-- The names in the order of their characters, each once. -/
def sortNames (names : List Name) : List Name := names.foldr insertName []

structure FileSystem where
  root : Node
  /-- The directory that is worked in or, if that is removed, the last one on the way to it that is
  not. -/
  workingDirectory : Location
  /-- How many directories on the way are removed: relative paths begin so far below. -/
  removed : Nat := 0

namespace FileSystem

/-- What stands at a place. -/
def look (fs : FileSystem) (loc : Location) : Option Item := (fs.root.at? loc).map Node.item

/-- The names of the entries of the directory at a place, in order. -/
def names (fs : FileSystem) (loc : Location) : List Name :=
  match fs.root.at? loc with
  | some (.directory entries) => sortNames (entries.map (·.1))
  | _ => []

def edit (fs : FileSystem) (f : List (Name × Node) → List (Name × Node)) (loc : Location) :
    FileSystem :=
  { fs with root := fs.root.edit f loc }

/-- Puts an entry into a directory, in the place of the one of its name. -/
def put (fs : FileSystem) (loc : Location) (n : Name) (x : Node) : FileSystem :=
  fs.edit (Node.setEntry n x) loc

/-- The directory that is worked in stands at the place or below it. -/
def worksIn (fs : FileSystem) (loc : Location) : Bool :=
  loc.isPrefixOf fs.workingDirectory && fs.look fs.workingDirectory = some .directory

/-- The way to the directory that is worked in is removed below this place. -/
def strand (fs : FileSystem) (loc : Location) : FileSystem where
  root := fs.root
  workingDirectory := loc
  removed := fs.removed + (fs.workingDirectory.length - loc.length)

/-- Takes the entry of a name out of a directory. -/
def erase (fs : FileSystem) (loc : Location) (n : Name) : FileSystem :=
  let left := fs.edit (Node.dropEntry n) loc
  if fs.worksIn (loc ++ [n]) then left.strand loc else left

/-- Takes all entries out of a directory. -/
def clear (fs : FileSystem) (loc : Location) : FileSystem :=
  let left := fs.edit (fun _ => []) loc
  if fs.worksIn loc then left.strand loc else left

end FileSystem

namespace Node

theorem lookup_map_edit (f : List (Name × Node) → List (Name × Node)) (n m : Name)
    (loc : Location) (entries : List (Name × Node)) :
    (entries.map fun e => if e.1 = n then (e.1, e.2.edit f loc) else e).lookup m =
      (entries.lookup m).map fun x => if m = n then x.edit f loc else x := by
  induction entries with
  | nil => rfl
  | cons e rest ih =>
    obtain ⟨k, x⟩ := e
    by_cases hm : m = k
    · subst hm
      by_cases hn : m = n <;> simp [hn]
    · have hb : (m == k) = false := by simpa using hm
      by_cases hk : k = n
      · rw [List.map_cons, if_pos hk, List.lookup_cons, List.lookup_cons, hb]
        exact ih
      · rw [List.map_cons, if_neg hk, List.lookup_cons, List.lookup_cons, hb]
        exact ih

@[simp] theorem item_edit (f : List (Name × Node) → List (Name × Node)) (loc : Location) (x : Node) :
    (x.edit f loc).item = x.item := by
  cases loc <;> cases x <;> rfl

theorem at?_edit_append {f : List (Name × Node) → List (Name × Node)} {loc : Location} {x : Node}
    {entries : List (Name × Node)} (h : x.at? loc = some (.directory entries)) (place : Location) :
    (x.edit f loc).at? (loc ++ place) = (Node.directory (f entries)).at? place := by
  induction loc generalizing x with
  | nil =>
    simp only [at?, Option.some.injEq] at h
    subst h
    rfl
  | cons n loc ih =>
    cases x with
    | file content => simp [at?, child?] at h
    | link target => simp [at?, child?] at h
    | directory all =>
      simp only [at?, child?] at h
      simp only [List.cons_append, at?, edit, child?, lookup_map_edit, if_true]
      cases hx : all.lookup n with
      | none => rw [hx] at h; cases h
      | some y =>
        rw [hx] at h
        simpa using ih h

theorem item_at?_edit {f : List (Name × Node) → List (Name × Node)} {loc place : Location}
    (h : ¬ loc <+: place ∨ loc = place) (x : Node) :
    ((x.edit f loc).at? place).map item = (x.at? place).map item := by
  induction loc generalizing x place with
  | nil =>
    rcases h with h | rfl
    · exact absurd (List.nil_prefix) h
    · simp [at?]
  | cons n loc ih =>
    cases place with
    | nil => simp [at?]
    | cons m place =>
      cases x with
      | file content => rfl
      | link target => rfl
      | directory entries =>
        simp only [at?, edit, child?, lookup_map_edit]
        cases entries.lookup m with
        | none => rfl
        | some y =>
          by_cases hm : m = n
          · subst hm
            simp only [Option.map_some, if_true]
            apply ih
            rcases h with h | h
            · exact .inl fun hp => h (List.cons_prefix_cons.2 ⟨rfl, hp⟩)
            · exact .inr (List.cons.inj h).2
          · simp [hm]

end Node

namespace FileSystem

/-- A change of the entries of one directory is seen below that directory only. -/
theorem look_edit {f : List (Name × Node) → List (Name × Node)} {loc place : Location}
    (h : ¬ loc <+: place ∨ loc = place) (fs : FileSystem) :
    (fs.edit f loc).look place = fs.look place :=
  Node.item_at?_edit h fs.root

/-- Below a changed directory the new entries are seen. -/
theorem look_edit_append {f : List (Name × Node) → List (Name × Node)} {fs : FileSystem}
    {loc : Location} {entries : List (Name × Node)}
    (h : fs.root.at? loc = some (.directory entries)) (place : Location) :
    (fs.edit f loc).look (loc ++ place) = ((Node.directory (f entries)).at? place).map Node.item := by
  simp only [look, edit, Node.at?_edit_append h]

end FileSystem
end Unseal
