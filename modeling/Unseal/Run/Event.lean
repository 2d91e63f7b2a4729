import Unseal.Revision
import Unseal.Run.Fault
import Unseal.Text.Escaped
/-
  Events — what is told of a run while it goes on

  Every event has a level and a message. A reader who asks for a level is told
  the events of that level and of the more important ones.
-/

namespace Unseal

inductive Level where
  | error
  | warn
  | info
  | debug
  deriving DecidableEq

/-- The most important level is the least. -/
def Level.rank : Level → Nat
  | .error => 0
  | .warn => 1
  | .info => 2
  | .debug => 3

def Level.name : Level → String
  | .error => "ERROR"
  | .warn => "WARN"
  | .info => "INFO"
  | .debug => "DEBUG"

inductive Event where
  /-- The rules choose no class. -/
  | nothingSelected
  | inputRoot (input : Path)
  | outputRoot (output : Path)
  | directoryCopy (target : Path)
  | fileCopy (target : Path)
  | decided (className : String) (decision : Decision)
  | classOpened (className : String)
  | methodOpened (className method : String)
  | transformed (className : String)
  | skipped (className : String)
  /-- The revised bytes of a class were not written, so those it was read from are. -/
  | writeFailed (fault : WriteFault) (target : Path)
  /-- A class file was not understood, so it is copied. -/
  | notUnderstood (source : Path) (fault : ClassFault)
  deriving DecidableEq

def Decision.phrase : Decision → String
  | .excludedClass => "ExcludedClass"
  | .coveringPackage package => s!"PackagePrefix({quoted package})"
  | .exactPackage package => s!"Package({quoted package})"
  | .includedClass => "IncludedClass"
  | .noMatch => "NoMatch"

namespace Event

def level : Event → Level
  | .nothingSelected | .writeFailed .. | .notUnderstood .. => .warn
  | .inputRoot _ | .outputRoot _ | .transformed _ | .skipped _ => .info
  | .directoryCopy _ | .fileCopy _ | .decided .. | .classOpened _ | .methodOpened .. => .debug

def message : Event → String
  | .nothingSelected => "No classes or packages selected; output will mirror input"
  | .inputRoot input => s!"Input: {input}"
  | .outputRoot output => s!"Output: {output}"
  | .directoryCopy target => s!"Copy directory to: {target}"
  | .fileCopy target => s!"Copy file to: {target}"
  | .decided className decision => s!"{className}: {decision.phrase}"
  | .classOpened className => s!"{className} - stripped final"
  | .methodOpened className method => s!"{className}#{method} - stripped final"
  | .transformed className => s!"Transformed class: {className}"
  | .skipped className => s!"Skipped transforming class: {className}"
  | .writeFailed fault target => s!"{fault.message}, copying {target} unchanged"
  | .notUnderstood source fault =>
    s!"Could not process {source} ({fault.message}), copying it unchanged"

/-- The message as it is shown on a console. -/
def line (e : Event) : String := consoleText e.message

/-- The event is told to a reader who asks for this level. -/
def isTold (asked : Level) (e : Event) : Bool := e.level.rank ≤ asked.rank

/-- What is told while a class is revised. -/
def ofRevision (r : Revision) : List Event :=
  .decided r.className r.decision ::
    match r.summary with
    | none => []
    | some summary =>
      (if summary.classStripped then [.classOpened r.className] else []) ++
        (r.source.methods.filter Method.isPublicFinal).map fun m => .methodOpened r.className m.name

end Event

/-- What has come of an activity: what it leaves, what was told, and its result. -/
structure Progress (σ ε α : Type) where
  state : σ
  events : List Event
  result : Except ε α

namespace Progress

variable {σ ε α β : Type}

/-- Goes on with the result, unless there is a fault. -/
def andThen (p : Progress σ ε α) (f : σ → α → Progress σ ε β) : Progress σ ε β :=
  match p.result with
  | .error fault => ⟨p.state, p.events, .error fault⟩
  | .ok a =>
    let q := f p.state a
    ⟨q.state, p.events ++ q.events, q.result⟩

/-- The activity under another name for its faults and its result. -/
def mapBoth {ε' : Type} (f : ε → ε') (g : α → β) (p : Progress σ ε α) : Progress σ ε' β :=
  ⟨p.state, p.events, (p.result.mapError f).map g⟩

end Progress
end Unseal
