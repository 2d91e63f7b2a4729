import Unseal.CommandLine.Answer
/-
  The program

  What a command can see of the disk is read into a file system, the command is
  carried out on that, and the changes are made on the disk. A link is read as a
  link to the place that it leads to.

  Entries that are gone or have become something else are removed, the deepest
  first; then directories are made and files are written, each directory before
  what is in it. No link is ever made.
-/

namespace Unseal

inductive Change where
  | removeFile (loc : Location)
  | removeDirectory (loc : Location)
  | makeDirectory (loc : Location)
  | writeFile (loc : Location) (content : Bytes)
  deriving DecidableEq

/-- The two are things of one kind. -/
def Item.isLike : Item → Item → Bool
  | .file _, .file _ | .link _, .link _ | .directory, .directory => true
  | _, _ => false

namespace FileSystem

/-- What has to be removed of an entry that stood at a place. -/
def removal (new : FileSystem) : Location × Item → Option Change
  | (loc, item) =>
    if (new.look loc).any item.isLike then none
    else
      match item with
      | .directory => some (.removeDirectory loc)
      | _ => some (.removeFile loc)

/-- What has to be made for an entry that stands at a place. -/
def making (old : FileSystem) : Location × Item → Option Change
  | (loc, item) =>
    if old.look loc = some item then none
    else
      match item with
      | .directory => some (.makeDirectory loc)
      | .file content => some (.writeFile loc content)
      | .link _ => none

/-- The changes that make the new file system of the old one, in order. -/
def changes (old new : FileSystem) : List Change :=
  (old.root.contents []).reverse.filterMap new.removal ++
    (new.root.contents []).filterMap old.making

end FileSystem

end Unseal

namespace Unseal.Program

/-- The place of a path from the root that passes through no link. -/
def locationOf (path : String) : Location :=
  (Path.ofText path).segments.filterMap fun
    | .name n => some n
    | _ => none

/-- The path from the root to a place. -/
def pathTo (loc : Location) : String := "/" ++ wayText loc

/-- The beginnings of a list, the shortest first. -/
def beginnings {α : Type} (xs : List α) : List (List α) :=
  (List.range (xs.length + 1)).map xs.take

/-- What is read of the disk. -/
structure Disk where
  files : FileSystem
  /-- The places that are read with all that is below them. -/
  read : List Location
  /-- The places to which links lead, which are still to be read. -/
  pending : List String

/-- Puts the directories on the way down to a place. -/
def putWay (fs : FileSystem) (loc : Location) : FileSystem :=
  (beginnings loc).foldl (fun fs way =>
    match way.getLast?, fs.look way with
    | some n, none => fs.put way.dropLast n (.directory [])
    | _, _ => fs) fs

/-- Puts what stands at a place. -/
def putAt (fs : FileSystem) (loc : Location) (x : Node) : FileSystem :=
  match loc.getLast? with
  | some n => (putWay fs loc.dropLast).put loc.dropLast n x
  | none => { fs with root := x }

/-- Where a link at a path leads: to a place, nowhere, or around in circles. -/
def readLink (path : String) : IO (Path × List String) := do
  try
    let target ← IO.FS.realPath path
    return (Path.ofText target.toString, [target.toString])
  catch
    | .noFileOrDirectory .. => return (Path.ofText s!"/missing target of {path}", [])
    | _ => return (Path.ofText path, [])

/-- Reads what stands at a path with all that is below it, and where the links in it lead. -/
partial def readNode (path : String) : IO (Node × List String) := do
  let file := (← IO.currentDir) / path
  match (← file.symlinkMetadata).type with
  | .symlink =>
    let (target, leads) ← readLink path
    return (.link target, leads)
  | .dir =>
    let mut entries : List (Name × Node) := []
    let mut leads : List String := []
    for entry in ← file.readDir do
      match Segment.ofText entry.fileName with
      | .name n =>
        let (x, more) ← readNode (path ++ "/" ++ n.text)
        entries := (n, x) :: entries
        leads := more ++ leads
      | _ => pure ()
    return (.directory entries, leads)
  | _ => return (.file (← IO.FS.readBinFile file).toList, [])

/-- Reads what is below a place, if it is not read yet. -/
def readPlace (disk : Disk) (path : String) : IO Disk := do
  let loc := locationOf path
  if disk.read.any (·.isPrefixOf loc) then return disk
  let (x, leads) ← readNode path
  return {
    files := putAt disk.files loc x
    read := loc :: disk.read
    pending := leads ++ disk.pending }

/-- Reads places until every link leads to one that is read. -/
partial def readPending (disk : Disk) : IO Disk := do
  match disk.pending with
  | [] => return disk
  | path :: rest => readPending (← readPlace { disk with pending := rest } path)

/-- Reads the links on the way along a path and what it leads to. -/
def readAlong (disk : Disk) (p : Path) : IO Disk := do
  let mut disk := disk
  for front in beginnings p.segments do
    let path : Path := ⟨front⟩
    match front.getLast? with
    | some (.name n) =>
      try
        let file := (← IO.currentDir) / path.text
        if (← file.symlinkMetadata).type == .symlink then
          let above : Path := ⟨front.dropLast ++ [.here]⟩
          let parent ← IO.FS.realPath above.text
          let (target, leads) ← readLink path.text
          disk := {
            files := putAt disk.files (locationOf parent.toString ++ [n]) (.link target)
            read := disk.read
            pending := leads ++ disk.pending }
      catch _ => pure ()
    | _ => pure ()
  try
    readPending (← readPlace disk (← IO.FS.realPath p.text).toString)
  catch _ => readPending disk

/-- The paths that a command is about. -/
def pathsOf (environment : Option String) (invocation : Invocation) : List Path :=
  (configPath invocation.config environment).toList ++
    match invocation.command with
    | .inspect file => [.ofText file]
    | .run args => [.ofText args.input, .ofText args.output]

/-- Reads of the disk what a command can see. -/
def readDisk (paths : List Path) : IO FileSystem := do
  let here := locationOf (← IO.FS.realPath ".").toString
  let start : FileSystem := { root := .directory [], workingDirectory := here }
  return (← paths.foldlM readAlong ⟨putWay start here, [], []⟩).files

/-- Makes a change on the disk. -/
def make : Change → IO Unit
  | .removeFile loc => IO.FS.removeFile (pathTo loc)
  | .removeDirectory loc => IO.FS.removeDir (pathTo loc)
  | .makeDirectory loc => IO.FS.createDir (pathTo loc)
  | .writeFile loc content => IO.FS.writeBinFile (pathTo loc) ⟨content.toArray⟩

/-- The level of the events that are told, by its name. -/
def levelOf (name : Option String) : Level :=
  match name with
  | some "error" => .error
  | some "warn" => .warn
  | some "debug" => .debug
  | _ => .info

/-- Carries out a command on the disk. -/
def carryOut (invocation : Invocation) : IO UInt32 := do
  let start ← IO.monoMsNow
  let environment ← IO.getEnv "NO_MORE_FINALS_CONFIG"
  let level := levelOf (← IO.getEnv "RUST_LOG")
  let old ← readDisk (pathsOf environment invocation)
  let done := old.perform environment invocation
  (old.changes done.state).forM make
  for e in done.events do
    if e.isTold level then IO.eprintln s!"{e.level.name} {e.line}"
  match done.result with
  | .ok answer => IO.print (answer.text ((← IO.monoMsNow) - start))
  | .error fault => IO.eprint fault.text
  return UInt32.ofNat (exitCode done.result)

end Unseal.Program

def main (args : List String) : IO UInt32 := do
  match Unseal.Invocation.ofCommandLine args with
  | .ok invocation => Unseal.Program.carryOut invocation
  | .error fault =>
    IO.eprintln fault.message
    return UInt32.ofNat fault.exitCode
