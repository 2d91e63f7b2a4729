import Unseal.FileSystem.Trail
/-
  Resolution — from a path to a place

  A path is followed segment by segment. Each segment is taken in a directory;
  a link on the way is replaced by its target, which begins at the root or in
  the directory that holds the link. What is done at the end of the path depends
  on what it is asked for. At most forty links are followed, so resolution ends.
  Where the directory that is worked in is removed, a relative path first has to
  lead up out of what is removed, since nothing has a name there. Every fault is
  worded with the number that the system gives it.

  Between two links a trail is kept, and no place is looked at from the root.

  What is proved:
    1. `advance_eq` — following segments along a trail comes to the same as looking
       at every place on the way, so resolution depends on what is seen only.
-/

namespace Unseal

inductive FileFault where
  /-- There is nothing at the path. -/
  | missing
  | busy
  | alreadyThere
  | notDirectory
  | isDirectory
  | invalidPath
  /-- The path, or a part of it, has too many bytes. -/
  | nameTooLong
  | notEmpty
  /-- The path passes through too many links. -/
  | tooManyLinks
  /-- The path holds the zero character. -/
  | zeroInPath
  /-- An empty path has no absolute form. -/
  | emptyPath
  deriving DecidableEq

def FileFault.message : FileFault → String
  | .missing => "No such file or directory (os error 2)"
  | .busy => "Device or resource busy (os error 16)"
  | .alreadyThere => "File exists (os error 17)"
  | .notDirectory => "Not a directory (os error 20)"
  | .isDirectory => "Is a directory (os error 21)"
  | .invalidPath => "Invalid argument (os error 22)"
  | .nameTooLong => "File name too long (os error 36)"
  | .notEmpty => "Directory not empty (os error 39)"
  | .tooManyLinks => "Too many levels of symbolic links (os error 40)"
  | .zeroInPath => "file name contained an unexpected NUL byte"
  | .emptyPath => "cannot make an empty path absolute"

/-- The greatest number of links on the way along a path. -/
def linkLimit : Nat := 40

/-- What is done at the end of a path. -/
inductive Ending where
  /-- A link there is what the path leads to. -/
  | entry
  /-- A link there is followed. -/
  | thing
  /-- A link there is followed, and a name with a slash behind it is taken for a directory. -/
  | file
  deriving DecidableEq

/-- Where a path leads. -/
inductive Target where
  | found (loc : Location)
  /-- The directory is there and has no entry of the last name of the path. -/
  | vacant (parent : Location) (name : Name)
  deriving DecidableEq

/-- The place that is found. -/
def Target.occupied : Target → Except FileFault Location
  | .found loc => .ok loc
  | .vacant _ _ => .error .missing

/-- How far a path is followed without passing through a link. -/
inductive Advance where
  | arrived (target : Target)
  | refused (fault : FileFault)
  /-- A link was met: these segments are to be followed from this directory. -/
  | redirected (loc : Location) (segments : List Segment)

/-- Only slashes are left, and at least one. -/
def onlySlashes (rest : List Segment) : Bool := !rest.isEmpty && rest.all (· = .blank)

/-- Follows segments up to the first link that is to be followed, by looking at each place. -/
def advance (look : Location → Option Item) (ending : Ending) (loc : Location) :
    List Segment → Advance
  | [] => .arrived (.found loc)
  | segment :: rest =>
    match look loc with
    | none => .refused .missing
    | some (.file _) | some (.link _) => .refused .notDirectory
    | some .directory =>
      match segment with
      | .blank | .here => advance look ending loc rest
      | .up => advance look ending loc.dropLast rest
      | .unfit _ => .refused .nameTooLong
      | .name n =>
        if ending = .file && onlySlashes rest then .refused .isDirectory
        else
          match look (loc ++ [n]) with
          | none => if rest.isEmpty then .arrived (.vacant loc n) else .refused .missing
          | some (.link target) =>
            if ending = .entry && rest.isEmpty then .arrived (.found (loc ++ [n]))
            else .redirected (if target.isAbsolute then [] else loc) (target.segments ++ rest)
          | some _ => advance look ending (loc ++ [n]) rest

/-- Follows segments up to the first link that is to be followed, along a trail. -/
def Trail.advance (root : Node) (ending : Ending) (t : Trail) : List Segment → Advance
  | [] => .arrived (.found (location t))
  | segment :: rest =>
    match node root t with
    | .file _ | .link _ => .refused .notDirectory
    | .directory entries =>
      match segment with
      | .blank | .here => advance root ending t rest
      | .up => advance root ending t.tail rest
      | .unfit _ => .refused .nameTooLong
      | .name n =>
        if ending = .file && onlySlashes rest then .refused .isDirectory
        else
          match entries.lookup n with
          | none => if rest.isEmpty then .arrived (.vacant (location t) n) else .refused .missing
          | some (.link target) =>
            if ending = .entry && rest.isEmpty then .arrived (.found (location t ++ [n]))
            else
              .redirected (if target.isAbsolute then [] else location t) (target.segments ++ rest)
          | some x => advance root ending ((n, x) :: t) rest

/-- Follows segments through links, of which at most `budget` are followed; `step` follows them up
to the next link. -/
def follow (step : Location → List Segment → Advance) :
    Nat → Location → List Segment → Except FileFault Target
  | budget, loc, segments =>
    match step loc segments with
    | .arrived target => .ok target
    | .refused fault => .error fault
    | .redirected loc segments =>
      match budget with
      | 0 => .error .tooManyLinks
      | budget + 1 => follow step budget loc segments

/-- The segments that are left when a path has led up out of so many removed directories. -/
def climb : Nat → List Segment → Option (List Segment)
  | 0, segments => some segments
  | k + 1, segments =>
    match segments.dropWhile Segment.isIdle with
    | .up :: rest => climb k rest
    | _ => none

/-- Refuses a path that no operation takes, whatever the file system holds. -/
def Path.check (p : Path) : Except FileFault Unit :=
  if p.isEmpty then .error .missing
  else if p.segments.any Segment.holdsZero then .error .zeroInPath
  else if p.isTooLong then .error .nameTooLong
  else .ok ()

namespace FileSystem

/-- Follows segments from a place up to the first link that is to be followed. -/
def advance (fs : FileSystem) (ending : Ending) (loc : Location) (segments : List Segment) :
    Advance :=
  match Trail.reach? fs.root loc with
  | some t => t.advance fs.root ending segments
  | none => if segments.isEmpty then .arrived (.found loc) else .refused .missing

/-- The place in which a path begins, or above the removed directories in which it begins. -/
def start (fs : FileSystem) (p : Path) : Location :=
  if p.isAbsolute then [] else fs.workingDirectory

/-- How many removed directories a path has to lead up out of. -/
def depth (fs : FileSystem) (p : Path) : Nat := if p.isAbsolute then 0 else fs.removed

/-- Where the path leads. -/
def resolve (fs : FileSystem) (ending : Ending) (p : Path) : Except FileFault Target := do
  p.check
  match climb (fs.depth p) p.segments with
  | some segments => follow (fs.advance ending) linkLimit (fs.start p) segments
  | none => throw .missing

/-- The place to which the path leads, through every link. -/
def locate (fs : FileSystem) (p : Path) : Except FileFault Location :=
  fs.resolve .thing p >>= Target.occupied

/-- The place to which the path leads, and not through a link at its end. -/
def locateEntry (fs : FileSystem) (p : Path) : Except FileFault Location :=
  fs.resolve .entry p >>= Target.occupied

/-- What the path leads to, through every link. -/
def stat (fs : FileSystem) (p : Path) : Except FileFault Item := do
  match fs.look (← fs.locate p) with
  | some item => return item
  | none => throw .missing

end FileSystem

theorem Trail.advance_eq {root : Node} (ending : Ending) {t : Trail} (h : Leads root t)
    (segments : List Segment) :
    Trail.advance root ending t segments =
      Unseal.advance (fun loc => (root.at? loc).map Node.item) ending (location t) segments := by
  induction segments generalizing t with
  | nil => rfl
  | cons segment rest ih =>
    simp only [Trail.advance, Unseal.advance, at?_location h, Option.map_some]
    cases hx : node root t with
    | file content => simp [Node.item]
    | link target => simp [Node.item]
    | directory entries =>
      simp only [Node.item]
      cases segment with
      | blank => exact ih h
      | here => exact ih h
      | up => rw [← location_tail]; exact ih h.tail
      | unfit text => rfl
      | name n =>
        simp only [at?_location_append h, hx, Node.child?]
        cases hy : entries.lookup n with
        | none => simp
        | some y =>
          have hd : Leads root ((n, y) :: t) := ⟨by rw [hx]; exact hy, h⟩
          cases y with
          | link target => simp [Node.item]
          | file content => simp [Node.item, ih hd, location_cons]
          | directory below => simp [Node.item, ih hd, location_cons]

/-- Following segments depends on what is seen only. -/
theorem FileSystem.advance_eq (fs : FileSystem) (ending : Ending) :
    fs.advance ending = Unseal.advance fs.look ending := by
  funext loc segments
  cases h : Trail.reach? fs.root loc with
  | some t =>
    obtain ⟨ht, rfl⟩ := Trail.leads_of_reach? h
    simp only [advance, h, Trail.advance_eq ending ht]
    rfl
  | none =>
    have hl : fs.look loc = none := by
      rw [look, Trail.reach?_eq_none_iff.1 h, Option.map_none]
    cases segments <;> simp [advance, h, Unseal.advance, hl]

end Unseal
