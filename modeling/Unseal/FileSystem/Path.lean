/-
  Paths — how a place in a file system is written

  A path is a text cut at its slashes. A part of it is the name of an entry, a
  step up, a step that stays, or nothing at all; a part that no entry can be
  called by is kept as it is. No part is lost, so a path is shown as it was
  written, and a path that begins with nothing before its first slash is
  absolute.
-/

namespace Unseal

/-- The greatest number of bytes in the name of an entry. -/
def nameLimit : Nat := 255

/-- The greatest number of bytes in a path. -/
def pathLimit : Nat := 4095

/-- An entry of a directory can have this name. -/
def isNameText (s : String) : Bool :=
  s ≠ "" && s ≠ "." && s ≠ ".." && !s.toList.contains '/' && !s.toList.contains '\x00' &&
    s.utf8ByteSize ≤ nameLimit

/-- The name of an entry of a directory. -/
structure Name where
  text : String
  isName : isNameText text = true
  deriving DecidableEq

/-- A part of a path. -/
inductive Segment where
  /-- There is nothing between two slashes, or behind the last one. -/
  | blank
  /-- One dot: the directory itself. -/
  | here
  /-- Two dots: the directory above. -/
  | up
  | name (n : Name)
  /-- A part that is no name because it is too long or holds the zero character. -/
  | unfit (text : String)
  deriving DecidableEq

namespace Segment

def ofText (s : String) : Segment :=
  if s = "" then .blank
  else if s = "." then .here
  else if s = ".." then .up
  else if h : isNameText s = true then .name ⟨s, h⟩
  else .unfit s

def text : Segment → String
  | .blank => ""
  | .here => "."
  | .up => ".."
  | .name n => n.text
  | .unfit s => s

/-- The segment stays where it is. -/
def isIdle : Segment → Bool
  | .blank | .here => true
  | _ => false

def holdsZero : Segment → Bool
  | .unfit s => s.toList.contains '\x00'
  | _ => false

end Segment

/-- The parts of a text between its slashes, of which there is always one. -/
def splitSlashes : List Char → List (List Char)
  | [] => [[]]
  | c :: rest =>
    match splitSlashes rest with
    | [] => [[c]]
    | part :: parts => if c = '/' then [] :: part :: parts else (c :: part) :: parts

/-- The list without the elements at its end that pass the test. -/
def dropEndWhile {α : Type} (p : α → Bool) (xs : List α) : List α :=
  (xs.reverse.dropWhile p).reverse

structure Path where
  segments : List Segment
  deriving DecidableEq

namespace Path

/-- The path without a part. -/
def empty : Path := ⟨[]⟩

def ofText (s : String) : Path :=
  if s = "" then empty
  else ⟨(splitSlashes s.toList).map fun part => Segment.ofText (String.ofList part)⟩

/-- The path as it is written. -/
def text (p : Path) : String := "/".intercalate (p.segments.map Segment.text)

instance : ToString Path := ⟨text⟩

/-- No operation takes the path, because it has too many bytes. -/
def isTooLong (p : Path) : Bool := pathLimit < p.text.utf8ByteSize

def isEmpty (p : Path) : Bool := p.segments.isEmpty

/-- The path begins at the root of the file system. -/
def isAbsolute (p : Path) : Bool := p.segments.head? = some .blank

/-- The path from the root along these segments. -/
def rooted : List Segment → Path
  | [] => ⟨[.blank, .blank]⟩
  | segments => ⟨.blank :: segments⟩

/-- The path goes on with names; a slash at its end is used and not doubled. -/
def extend (p : Path) : List Name → Path
  | [] => p
  | names =>
    match p.segments.getLast? with
    | some .blank => ⟨p.segments.dropLast ++ names.map .name⟩
    | _ => ⟨p.segments ++ names.map .name⟩

/-- The path goes on with one name. -/
def join (p : Path) (n : Name) : Path := p.extend [n]

/-- The path without slashes at its end, the one of the root apart. -/
def withoutTrailingSlash (p : Path) : Path :=
  match p.segments, dropEndWhile (· = .blank) p.segments with
  | [], _ => empty
  | _, [] => ⟨[.blank, .blank]⟩
  | _, segments => ⟨segments⟩

/-- The beginning of a path that counts even if it stays where it is. -/
def lead (p : Path) : List Segment :=
  match p.segments with
  | .blank :: _ => [.blank]
  | .here :: _ => [.here]
  | _ => []

/-- What stands behind the lead, without what stays at its end. -/
def body (p : Path) : List Segment :=
  dropEndWhile Segment.isIdle (p.segments.drop p.lead.length)

/--
The path without its last component. The root and the empty path have no parent; the parent of
a single component is the empty path, or the root if the component stands in it.
-/
def parent? (p : Path) : Option Path :=
  match p.lead, p.body with
  | [], [] => none
  | [.here], [] => some empty
  | _, [] => none
  | lead, body =>
    match lead, dropEndWhile Segment.isIdle body.dropLast with
    | [.blank], [] => some ⟨[.blank, .blank]⟩
    | lead, front => some ⟨lead ++ front⟩

/-- The path as it is when nothing in it stays where it is, without a mark that it is absolute. -/
def moves (p : Path) : List Segment := p.segments.filter (!·.isIdle)

end Path
end Unseal
