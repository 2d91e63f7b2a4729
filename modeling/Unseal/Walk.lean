import Unseal.FileSystem.Resolve
/-
  Walking a tree — every entry below a directory

  The entries of each directory are met in the order of their names, a directory
  before what is in it, and links are followed. The walk fails at a link that
  leads nowhere, at a directory whose path is too long to be read by, and at a
  link to a directory that the walk is inside of: only such a link can make a
  tree endless, so without one the walk ends.
-/

namespace Unseal

inductive EntryKind where
  | directory
  | plainFile
  | classFile
  deriving DecidableEq

/-- What a walk has met. -/
structure Entry where
  /-- The names on the way from the root of the walk. -/
  path : List Name
  kind : EntryKind
  deriving DecidableEq

/-- Why a walk fails. -/
inductive WalkFault where
  | unreadable (path : Path) (cause : FileFault)
  /-- The link leads to a directory around it, which was reached by the other path. -/
  | loop (link around : Path)
  deriving DecidableEq

def WalkFault.message : WalkFault → String
  | .unreadable path cause => s!"{path}: IO error for operation on {path}: {cause.message}"
  | .loop link around => s!"File system loop found: {link} points to an ancestor {around}"

/-- The name of a class file: something, and `.class` behind it. -/
def Name.isClassFile (n : Name) : Bool :=
  ".class".toList.isSuffixOf n.text.toList && n.text ≠ ".class"

/-- A file by its name. -/
def EntryKind.ofFile (n : Name) : EntryKind := if n.isClassFile then .classFile else .plainFile

/-- A directory that a walk is inside of. -/
structure Visit where
  path : Path
  location : Location

namespace FileSystem

/--
The directory to be entered under a name, if it is one. `inside` are the directories that the
walk is inside of, from `here` outwards.
-/
def enter (fs : FileSystem) (here : Visit) (inside : List Visit) (n : Name) :
    Except WalkFault (Option Visit) :=
  let path := here.path.join n
  let place := here.location ++ [n]
  match fs.look place with
  | none => .error (.unreadable path .missing)
  | some (.file _) => .ok none
  | some .directory =>
    if path.isTooLong then .error (.unreadable path .nameTooLong) else .ok (some ⟨path, place⟩)
  | some (.link _) =>
    match fs.locate path with
    | .error cause => .error (.unreadable path cause)
    | .ok place =>
      match fs.look place with
      | some .directory =>
        match (here :: inside).find? (·.location = place) with
        | some around => .error (.loop path around.path)
        | none => .ok (some ⟨path, place⟩)
      | _ => .ok none

/-- The entries under some names of a directory; `walk` gives those of the directories in it. -/
def walkNames (fs : FileSystem)
    (walk : Visit → List Visit → List Name → Except WalkFault (List Entry))
    (here : Visit) (inside : List Visit) (way : List Name) :
    List Name → Except WalkFault (List Entry)
  | [] => .ok []
  | n :: names =>
    match fs.enter here inside n with
    | .error fault => .error fault
    | .ok none => do
      return ⟨way ++ [n], .ofFile n⟩ :: (← fs.walkNames walk here inside way names)
    | .ok (some visit) => do
      let entries ← walk visit (here :: inside) (way ++ [n])
      return ⟨way ++ [n], .directory⟩ :: entries ++ (← fs.walkNames walk here inside way names)

/-- The entries below a directory, as far down as `depth` directories. -/
def walkDirectory (fs : FileSystem) :
    Nat → Visit → List Visit → List Name → Except WalkFault (List Entry)
  | 0, _, _, _ => .ok []
  | depth + 1, here, inside, way =>
    fs.walkNames (fs.walkDirectory depth) here inside way (fs.names here.location)

/--
The greatest number of directories that a walk can be inside of. A way down that passes through
no link is no longer than the tree is high, and a path passes through links only so often.
-/
def walkDepth (fs : FileSystem) : Nat := (linkLimit + 1) * fs.root.height

end FileSystem

/-- The path that stands for the input of the program and for no place in the file system. -/
def Path.isStandardInput (p : Path) : Bool :=
  match p.lead, p.body with
  | [], [.name n] => n.text = "-"
  | _, _ => false

/-- Every entry below the directory at the path; below anything else there is none. -/
def FileSystem.discover (fs : FileSystem) (root : Path) : Except WalkFault (List Entry) :=
  if root.isStandardInput then .ok []
  else
    match fs.locate root with
    | .error cause => .error (.unreadable root cause)
    | .ok place =>
      match fs.look place with
      | some .directory => fs.walkDirectory fs.walkDepth ⟨root, place⟩ [] []
      | _ => .ok []

end Unseal
