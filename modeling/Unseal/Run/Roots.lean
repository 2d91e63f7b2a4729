import Unseal.FileSystem.Operations
import Unseal.Run.Fault
/-
  Roots of a run — the directory that is read and the one that is made anew

  Before the output is cleared it is made sure that neither root lies in the
  other. The roots are compared as places: the input as the place it leads to,
  and the output so too if it is there. An output that is not there yet is
  compared as its name in the place of the directory above it, and as it is
  written if that is not there either.
-/

namespace Unseal

namespace FileSystem

/-- The path from the root, without what stays where it is. An empty path has none, nor has one that
begins in a removed directory. -/
def absolute (fs : FileSystem) (p : Path) : Except FileFault (List Segment) :=
  if p.isEmpty then .error .emptyPath
  else if fs.depth p ≠ 0 then .error .missing
  else .ok ((fs.start p).map .name ++ p.moves)

/-- What stands at a place, if the path from the root to it is not too long. -/
def lookShort (fs : FileSystem) (loc : Location) : Option Item :=
  if (Path.rooted (loc.map .name)).isTooLong then none else fs.look loc

/-- The place to which the path leads, as it is written from the root. The path must not begin in a
removed directory, and each place on the way is looked at by its path from the root, so that none may
be too long. -/
def canonical (fs : FileSystem) (p : Path) : Except FileFault (List Segment) := do
  let place ← fs.locate p
  if fs.depth p ≠ 0 then throw .missing
  else
    match follow (Unseal.advance fs.lookShort .thing) linkLimit (fs.start p) p.segments with
    | .ok (.found _) => return place.map .name
    | _ => throw .nameTooLong

/-- The path leads to something. -/
def isThere (fs : FileSystem) (p : Path) : Bool := (fs.locate p).toBool

/-- The output as it is compared with the input. -/
def outputPlace (fs : FileSystem) (output : Path) : Except RunFault (List Segment) := do
  if fs.isThere output then (fs.canonical output).mapError (.outputUnresolved output)
  else
    let segments ← (fs.absolute output).mapError (.outputUnresolved output)
    match segments.getLast? with
    | none | some .up => return segments
    | some last =>
      let above := Path.rooted segments.dropLast
      if fs.isThere above then
        return (← (fs.canonical above).mapError (.directoryUnresolved above)) ++ [last]
      else return segments

/-- Refuses roots of which one lies in the other. -/
def checkRoots (fs : FileSystem) (input output : Path) : Except RunFault Unit := do
  let inputPlace ← (fs.canonical input).mapError (.inputUnresolved input)
  let outputPlace ← fs.outputPlace output
  if outputPlace.isPrefixOf inputPlace then throw (.outputContainsInput output input)
  if inputPlace.isPrefixOf outputPlace then throw (.outputInsideInput output input)

/-- The input is a directory and neither root lies in the other. -/
def allowRoots (fs : FileSystem) (input output : Path) : Except RunFault Unit :=
  match fs.stat input with
  | .error cause => .error (.inputUnreadable input cause)
  | .ok .directory => fs.checkRoots input output
  | .ok _ => .error (.inputNotDirectory input)

/-- Removes what is at the output. -/
def clearOutput (fs : FileSystem) (output : Path) : FileSystem × Except RunFault Unit :=
  match fs.locateEntry output with
  | .error .missing => (fs, .ok ())
  | .error cause => (fs, .error (.outputUninspected output cause))
  | .ok loc =>
    match fs.look loc with
    | some .directory =>
      let (fs, done) := fs.removeTree output
      (fs, done.mapError (.outputNotCleared output))
    | _ =>
      match fs.removeFile output with
      | .ok fs => (fs, .ok ())
      | .error cause => (fs, .error (.outputFileNotRemoved output cause))

/-- Puts an empty directory in the place of what is at the output. -/
def prepareOutput (fs : FileSystem) (output : Path) : FileSystem × Except RunFault Unit :=
  match fs.clearOutput output with
  | (fs, .error fault) => (fs, .error fault)
  | (fs, .ok ()) =>
    let (fs, done) := fs.makeDirectories output
    (fs, done.mapError (.outputNotMade output))

end FileSystem
end Unseal
