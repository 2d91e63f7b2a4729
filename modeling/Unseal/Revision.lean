import Unseal.ClassFile.Encode
import Unseal.ClassFile.Edit
import Unseal.Selection.Rules
/-
  Revision — a class file as the rules want it

  A class file is read, the rules are asked about it, it is stripped if they
  include it, and it is written again. A class that is not included is read and
  written all the same.
-/

namespace Unseal

structure Revision where
  /-- The class as it was read. -/
  source : ClassFile
  decision : Decision
  /-- What was cleared; none for a class that is not included. -/
  summary : Option StripSummary
  bytes : Bytes
  deriving DecidableEq

def Revision.className (r : Revision) : String := r.source.name

/-- The class that is written for a decision, and what was cleared on it. -/
def ClassFile.applyDecision (c : ClassFile) (d : Decision) : ClassFile × Option StripSummary :=
  if d.isIncluded then
    let (stripped, summary) := c.strip
    (stripped, some summary)
  else (c, none)

/-- The class file in the bytes, revised under the rules. -/
def revise (rules : Rules) (bs : Bytes) : Except ClassFault Revision :=
  match ClassFile.decode bs with
  | .error e => .error e
  | .ok source =>
    let decision := rules.decide source.name source.package
    let (edited, summary) := source.applyDecision decision
    match edited.encode with
    | .error e => .error e
    | .ok bytes => .ok { source, decision, summary, bytes }

end Unseal
