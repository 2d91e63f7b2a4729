import Unseal.FileSystem.Resolve
/-
  Operations on files and directories

  Each operation is given a path and either is refused, with a fault, or gives
  the file system that it leaves. Two operations can have done a part of their
  work when they are refused, and say what they leave in both cases: making a
  directory with all directories above it, and removing a directory with all
  that is in it.
-/

namespace Unseal.FileSystem

/-- The path leads to a directory. -/
def isDirectory (fs : FileSystem) (p : Path) : Bool :=
  match fs.stat p with
  | .ok .directory => true
  | _ => false

/-- The bytes of the file to which the path leads. -/
def readFile (fs : FileSystem) (p : Path) : Except FileFault Bytes := do
  match ← fs.stat p with
  | .file content => return content
  | _ => throw .isDirectory

/-- Gives the file at the path these bytes; without one it is made. -/
def writeFile (fs : FileSystem) (p : Path) (content : Bytes) : Except FileFault FileSystem := do
  match ← fs.resolve .file p with
  | .vacant parent n => return fs.put parent n (.file content)
  | .found loc =>
    match fs.look loc, loc.getLast? with
    | some (.file _), some n => return fs.put loc.dropLast n (.file content)
    | _, _ => throw .isDirectory

/-- Puts a new entry at the path, where nothing may be. -/
def makeEntry (fs : FileSystem) (p : Path) (x : Node) : Except FileFault FileSystem := do
  match ← fs.resolve .entry p with
  | .found _ => throw .alreadyThere
  | .vacant parent n => return fs.put parent n x

/-- Makes an empty directory. -/
def makeDirectory (fs : FileSystem) (p : Path) : Except FileFault FileSystem := do
  p.check
  fs.makeEntry p.withoutTrailingSlash (.directory [])

/-- Makes a link. -/
def makeLink (fs : FileSystem) (p target : Path) : Except FileFault FileSystem :=
  fs.makeEntry p (.link target)

/--
Makes a directory when there is none; the directories above it, at most `steps`, are made first if
they are missing.
-/
def makeMissing (fs : FileSystem) : (steps : Nat) → Path → FileSystem × Except FileFault Unit
  | 0, _ => (fs, .ok ())
  | steps + 1, p =>
    let settle (fs : FileSystem) (fault : FileFault) : FileSystem × Except FileFault Unit :=
      (fs, if fs.isDirectory p then .ok () else .error fault)
    let again (fs : FileSystem) : FileSystem × Except FileFault Unit :=
      match fs.makeDirectory p with
      | .ok fs => (fs, .ok ())
      | .error fault => settle fs fault
    if p.isEmpty then (fs, .ok ())
    else
      match fs.makeDirectory p with
      | .ok fs => (fs, .ok ())
      | .error .missing =>
        match p.parent? with
        | none => again fs
        | some above =>
          match fs.makeMissing steps above with
          | (fs, .error fault) => (fs, .error fault)
          | (fs, .ok ()) => again fs
      | .error fault => settle fs fault

/-- Sees to it that there is a directory at the path, and makes those above it that are missing. -/
def makeDirectories (fs : FileSystem) (p : Path) : FileSystem × Except FileFault Unit :=
  fs.makeMissing (p.segments.length + 1) p

/-- Removes a file or a link. -/
def removeFile (fs : FileSystem) (p : Path) : Except FileFault FileSystem := do
  let loc ← fs.locateEntry p
  match fs.look loc, loc.getLast? with
  | some .directory, _ | _, none => throw .isDirectory
  | _, some n => return fs.erase loc.dropLast n

/-- Removes a directory without entries. It cannot be named by dots or as the root. -/
def removeDirectory (fs : FileSystem) (p : Path) : Except FileFault FileSystem := do
  p.check
  let segments := p.withoutTrailingSlash.segments
  -- Out of a removed directory only the step up leads, so it is taken with what stands before it.
  let parent ← fs.locate
    ⟨if segments.getLast? = some .up then segments else segments.dropLast ++ [.here]⟩
  match segments.getLast? with
  | none | some .blank => throw .busy
  | some .here => throw .invalidPath
  | some .up => throw .notEmpty
  | some (.unfit _) => throw .nameTooLong
  | some (.name n) =>
    match fs.look (parent ++ [n]) with
    | none => throw .missing
    | some .directory =>
      if (fs.names (parent ++ [n])).isEmpty then return fs.erase parent n else throw .notEmpty
    | some _ => throw .notDirectory

/--
Removes what is at the path with all that is in it. Of a link only the link is removed. The
entries of a directory are removed before the directory itself, and stay removed if the directory
cannot be.
-/
def removeTree (fs : FileSystem) (p : Path) : FileSystem × Except FileFault Unit :=
  match fs.locateEntry p with
  | .error fault => (fs, .error fault)
  | .ok loc =>
    match fs.look loc with
    | some (.link _) =>
      match fs.removeFile p with
      | .ok fs => (fs, .ok ())
      | .error fault => (fs, .error fault)
    | some .directory =>
      let fs := fs.clear loc
      match fs.removeDirectory p with
      | .ok fs => (fs, .ok ())
      | .error .missing => (fs, .ok ())
      | .error fault => (fs, .error fault)
    | _ => (fs, .error .notDirectory)

end Unseal.FileSystem
