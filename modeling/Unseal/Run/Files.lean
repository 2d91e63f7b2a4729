import Unseal.FileSystem.Operations
import Unseal.Run.Event
/-
  Files of a run — copying files and revising classes

  A plain file is copied. A class file is revised, and what was read is
  written in its place when it is not understood or its revised bytes are
  refused. Files are read from and written to a store, of which nothing is
  assumed here, so that all of this can be said of any store.
-/

namespace Unseal

/-- Where files are read and written. -/
structure FileStore (σ : Type) where
  read : σ → Path → Except FileFault Bytes
  write : σ → Path → Bytes → σ × Except WriteFault Unit

/-- What became of a file. -/
inductive Outcome where
  | copied
  | transformed (path : List Name) (className : String) (summary : StripSummary)
  | untouched
  /-- The bytes that were read were written, because of this. -/
  | fallback (path : List Name) (reason : String)
  deriving DecidableEq

namespace FileStore

variable {σ : Type} (store : FileStore σ)

/--
Writes the revised bytes of a class or, if they are refused, those it was read from. The result
is the first fault if the second writing was needed; both faults together are a failure.
-/
def writeClass (s : σ) (target : Path) (revised read : Bytes) :
    Progress σ RunFault (Option WriteFault) :=
  match store.write s target revised with
  | (s, .ok ()) => ⟨s, [], .ok none⟩
  | (s, .error first) =>
    match store.write s target read with
    | (s, .ok ()) => ⟨s, [.writeFailed first target], .ok (some first)⟩
    | (s, .error second) => ⟨s, [.writeFailed first target], .error (.classNotWritten first second)⟩

/-- Writes bytes that are copied. -/
def copy (s : σ) (target : Path) (bytes : Bytes) (told : Event) (outcome : Outcome) :
    Progress σ RunFault Outcome :=
  match store.write s target bytes with
  | (s, .ok ()) => ⟨s, [told], .ok outcome⟩
  | (s, .error fault) => ⟨s, [told], .error (.fileNotWritten fault)⟩

/-- Tells what a revision did and how it ends. -/
def conclude (s : σ) (path : List Name) (r : Revision) : Option WriteFault →
    Progress σ RunFault Outcome
  | some fault => ⟨s, [], .ok (.fallback path fault.message)⟩
  | none =>
    match r.summary with
    | some summary => ⟨s, [.transformed r.className], .ok (.transformed path r.className summary)⟩
    | none => ⟨s, [.skipped r.className], .ok .untouched⟩

/-- Revises a class file, or copies it if it is not understood. -/
def processClass (rules : Rules) (s : σ) (source target : Path) (path : List Name) (bytes : Bytes) :
    Progress σ RunFault Outcome :=
  match revise rules bytes with
  | .error fault =>
    store.copy s target bytes (.notUnderstood source fault) (.fallback path fault.message)
  | .ok r =>
    let written : Progress σ RunFault (Option WriteFault) :=
      store.writeClass s target r.bytes bytes
    let told : Progress σ RunFault Unit := ⟨s, Event.ofRevision r, .ok ()⟩
    (told.andThen fun _ _ => written).andThen fun s fault => conclude s path r fault

/-- Does what is to be done with a file below the input. -/
def process (rules : Rules) (input output : Path) (s : σ) (e : Entry) :
    Progress σ RunFault Outcome :=
  let source := input.extend e.path
  let target := output.extend e.path
  match store.read s source with
  | .error cause => ⟨s, [], .error (.fileUnreadable source cause)⟩
  | .ok bytes =>
    if e.kind = .classFile then store.processClass rules s source target e.path bytes
    else store.copy s target bytes (.fileCopy target) .copied

/-- Does what is to be done with all files, one after the other, up to the first failure. -/
def processAll (rules : Rules) (input output : Path) (s : σ) :
    List Entry → Progress σ RunFault (List Outcome)
  | [] => ⟨s, [], .ok []⟩
  | e :: rest =>
    (store.process rules input output s e).andThen fun s outcome =>
      (processAll rules input output s rest).mapBoth id (outcome :: ·)

end FileStore

/-- Writes a file, and makes the directories above it that are missing. -/
def FileSystem.writeOutput (fs : FileSystem) (p : Path) (content : Bytes) :
    FileSystem × Except WriteFault Unit :=
  let write (fs : FileSystem) : FileSystem × Except WriteFault Unit :=
    match fs.writeFile p content with
    | .ok fs => (fs, .ok ())
    | .error cause => (fs, .error (.notWritten p cause))
  match p.parent? with
  | none => write fs
  | some parent =>
    if parent.isEmpty then write fs
    else
      match fs.makeDirectories parent with
      | (fs, .ok ()) => write fs
      | (fs, .error cause) => (fs, .error (.directoryNotMade parent cause))

/-- The file system as a store. -/
def FileSystem.store : FileStore FileSystem := ⟨readFile, writeOutput⟩

end Unseal
