import Unseal.ClassFile.Fault
import Unseal.Walk
/-
  Run faults — why a run, or a write in it, does not come to its end

  A fault has a message and, below it, the chain of its causes.
-/

namespace Unseal

/-- Why a file is not written. -/
inductive WriteFault where
  | directoryNotMade (directory : Path) (cause : FileFault)
  | notWritten (file : Path) (cause : FileFault)
  /-- The store has a reason of its own. -/
  | refused (reason : String)
  deriving DecidableEq

/-- The messages of a fault and of its causes, outermost first. -/
def WriteFault.chain : WriteFault → List String
  | .directoryNotMade directory cause =>
    [s!"Failed to create directory: {directory}", cause.message]
  | .notWritten file cause => [s!"Failed to write file: {file}", cause.message]
  | .refused reason => [reason]

/-- A chain of messages in one line. -/
def inOneLine (chain : List String) : String := ": ".intercalate chain

def WriteFault.message (fault : WriteFault) : String := inOneLine fault.chain

inductive RunFault where
  | inputUnreadable (input : Path) (cause : FileFault)
  | inputNotDirectory (input : Path)
  | inputUnresolved (input : Path) (cause : FileFault)
  | outputUnresolved (output : Path) (cause : FileFault)
  | directoryUnresolved (directory : Path) (cause : FileFault)
  | outputContainsInput (output input : Path)
  | outputInsideInput (output input : Path)
  | outputUninspected (output : Path) (cause : FileFault)
  | outputNotCleared (output : Path) (cause : FileFault)
  | outputFileNotRemoved (output : Path) (cause : FileFault)
  | outputNotMade (output : Path) (cause : FileFault)
  | walkFailed (input : Path) (cause : WalkFault)
  | directoryNotMade (directory : Path) (cause : FileFault)
  | fileUnreadable (file : Path) (cause : FileFault)
  | fileNotWritten (cause : WriteFault)
  /-- Neither the revised bytes of a class nor those it was read from were written. -/
  | classNotWritten (revised read : WriteFault)
  deriving DecidableEq

/-- The messages of a fault and of its causes, outermost first. -/
def RunFault.chain : RunFault → List String
  | .inputUnreadable input cause => [s!"Failed to read input root: {input}", cause.message]
  | .inputNotDirectory input => [s!"Input root is not a directory: {input}"]
  | .inputUnresolved input cause => [s!"Failed to resolve input root: {input}", cause.message]
  | .outputUnresolved output cause => [s!"Failed to resolve output root: {output}", cause.message]
  | .directoryUnresolved directory cause =>
    [s!"Failed to resolve directory: {directory}", cause.message]
  | .outputContainsInput output input =>
    [s!"Output root {output} contains input root {input}; refusing to clear it"]
  | .outputInsideInput output input => [s!"Output root {output} lies inside input root {input}"]
  | .outputUninspected output cause => [s!"Failed to inspect output root: {output}", cause.message]
  | .outputNotCleared output cause => [s!"Failed to clear output root: {output}", cause.message]
  | .outputFileNotRemoved output cause =>
    [s!"Failed to remove output file: {output}", cause.message]
  | .outputNotMade output cause => [s!"Failed to create output root: {output}", cause.message]
  | .walkFailed input cause => [s!"Failed to walk input root: {input}", cause.message]
  | .directoryNotMade directory cause =>
    [s!"Failed to create directory: {directory}", cause.message]
  | .fileUnreadable file cause => [s!"Failed to read file: {file}", cause.message]
  | .fileNotWritten cause => cause.chain
  | .classNotWritten revised read =>
    s!"Failed to write original bytes after: {revised.message}" :: read.chain

end Unseal
