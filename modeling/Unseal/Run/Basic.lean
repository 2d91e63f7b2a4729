import Unseal.Json.Value
import Unseal.Run.Files
import Unseal.Run.Roots
/-
  Runs — a tree of class files revised into another

  The input is walked, its directories are made below the output, and then its
  files are copied or revised. Files do not depend on each other, so doing
  them at the same time or in turn comes to the same. The counts and lists of a
  report are read off the outcomes of the files, in the order of the walk.
-/

namespace Unseal

/-- A class that was opened. -/
structure TransformedClass where
  path : List Name
  className : String
  summary : StripSummary
  deriving DecidableEq

/-- A class that was copied. -/
structure FallbackRecord where
  path : List Name
  reason : String
  deriving DecidableEq

structure Report where
  input : Path
  output : Path
  directories : Nat
  copiedFiles : Nat
  untouchedClasses : Nat
  transformed : List TransformedClass
  fallbacks : List FallbackRecord
  deriving DecidableEq

namespace Outcome

def transformed? : Outcome → Option TransformedClass
  | .transformed path className summary => some ⟨path, className, summary⟩
  | _ => none

def fallback? : Outcome → Option FallbackRecord
  | .fallback path reason => some ⟨path, reason⟩
  | _ => none

end Outcome

namespace Report

/-- The report on outcomes. -/
def ofOutcomes (input output : Path) (directories : Nat) (outcomes : List Outcome) : Report where
  input := input
  output := output
  directories := directories
  copiedFiles := outcomes.count .copied
  untouchedClasses := outcomes.count .untouched
  transformed := outcomes.filterMap Outcome.transformed?
  fallbacks := outcomes.filterMap Outcome.fallback?

def transformedClasses (r : Report) : Nat := r.transformed.length

def fallbackClasses (r : Report) : Nat := r.fallbacks.length

/-- The number of methods that were opened. -/
def strippedMethods (r : Report) : Nat :=
  r.transformed.foldl (fun n t => n + t.summary.methods.length) 0

end Report

/-- The names with slashes between them. -/
def wayText (way : List Name) : String := "/".intercalate (way.map Name.text)

def TransformedClass.describe (t : TransformedClass) : Json :=
  .object [
    ("path", .text (wayText t.path)),
    ("class_name", .text t.className),
    ("class_stripped", .bool t.summary.classStripped),
    ("methods", .list (t.summary.methods.map .text))]

def FallbackRecord.describe (f : FallbackRecord) : Json :=
  .object [("path", .text (wayText f.path)), ("error", .text f.reason)]

namespace Report

/-- The report on a run that took this many thousandths of a second. -/
def describe (r : Report) (elapsed : Nat) : Json :=
  .object [
    ("input", .text r.input.text),
    ("output", .text r.output.text),
    ("directories", .number r.directories),
    ("copied_files", .number r.copiedFiles),
    ("transformed_classes", .number r.transformedClasses),
    ("untouched_classes", .number r.untouchedClasses),
    ("fallback_classes", .number r.fallbackClasses),
    ("stripped_methods", .number r.strippedMethods),
    ("duration_ms", .number elapsed),
    ("transformed", .list (r.transformed.map TransformedClass.describe)),
    ("fallbacks", .list (r.fallbacks.map FallbackRecord.describe))]

/-- The report in lines of plain text. -/
def lines (r : Report) (elapsed : Nat) : List String :=
  [s!"input: {r.input}",
   s!"output: {r.output}",
   s!"copied_files: {r.copiedFiles}",
   s!"transformed_classes: {r.transformedClasses}",
   s!"untouched_classes: {r.untouchedClasses}",
   s!"fallback_classes: {r.fallbackClasses}",
   s!"duration_ms: {elapsed}"] ++
  r.transformed.map (fun t =>
    let methods := ", ".intercalate t.summary.methods
    s!"- {t.className} (class: {t.summary.classStripped}, methods: {methods})") ++
  r.fallbacks.map fun f => s!"! {wayText f.path}: {f.reason}"

end Report

/-- Makes the directories below the output that were met below the input. -/
def FileSystem.makeOutputDirectories (fs : FileSystem) (output : Path) :
    List Entry → Progress FileSystem RunFault Unit
  | [] => ⟨fs, [], .ok ()⟩
  | e :: rest =>
    let target := output.extend e.path
    let made : Progress FileSystem RunFault Unit :=
      match fs.makeDirectories target with
      | (fs, done) => ⟨fs, [.directoryCopy target], done.mapError (.directoryNotMade target)⟩
    made.andThen fun fs _ => fs.makeOutputDirectories output rest

/-- Copies and revises what was met below the input. -/
def FileSystem.copyEntries (fs : FileSystem) (rules : Rules) (input output : Path)
    (entries : List Entry) : Progress FileSystem RunFault Report :=
  let directories := entries.filter (·.kind = .directory)
  let files := entries.filter (·.kind ≠ .directory)
  (fs.makeOutputDirectories output directories).andThen fun fs _ =>
    (FileSystem.store.processAll rules input output fs files).mapBoth id
      (Report.ofOutcomes input output directories.length)

/-- Makes the output from the input. -/
def FileSystem.run (fs : FileSystem) (rules : Rules) (input output : Path) :
    Progress FileSystem RunFault Report :=
  match fs.allowRoots input output with
  | .error fault => ⟨fs, [], .error fault⟩
  | .ok () =>
    match fs.prepareOutput output with
    | (fs, .error fault) => ⟨fs, [], .error fault⟩
    | (fs, .ok ()) =>
      let walked : Progress FileSystem RunFault (List Entry) :=
        ⟨fs, [.inputRoot input, .outputRoot output],
          (fs.discover input).mapError (.walkFailed input)⟩
      walked.andThen fun fs entries => fs.copyEntries rules input output entries

end Unseal
