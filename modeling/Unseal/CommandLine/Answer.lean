import Unseal.CommandLine.Parse
import Unseal.Json.Value
import Unseal.Run.Basic
import Unseal.Selection.RulesText
/-
  Answers — what a command line comes to

  A run takes its rules from the file of rules and adds those of its options. A
  file of rules that is named on the command line goes before the one that is
  named in the environment. A class file is shown as an object of its name, its
  flags and its methods. The answer is printed; a fault is printed with the list
  of its causes.
-/

namespace Unseal

def Method.describe (m : Method) : Json :=
  .object [
    ("name", .text m.name),
    ("descriptor", .text m.descriptor),
    ("access_flags", .number m.access.bits.toNat),
    ("modifiers", .list (m.access.methodModifiers.map .text))]

/-- The name, version, flags and methods of a class. -/
def ClassFile.describe (c : ClassFile) : Json :=
  .object [
    ("name", .text c.name),
    ("package", .text c.package),
    ("version", .text s!"{c.majorVersion}.{c.minorVersion}"),
    ("access_flags", .number c.access.bits.toNat),
    ("modifiers", .list (c.access.classModifiers.map .text)),
    ("inner_class_flags",
      match c.innerAccess with
      | some access => .number access.bits.toNat
      | none => .null),
    ("is_final", .bool c.isFinal),
    ("fields", .number c.fields.length),
    ("methods", .list (c.methods.map Method.describe))]

/-- Why a file of rules is not read. -/
inductive TextFault where
  | unreadable (cause : FileFault)
  | notUtf8
  deriving DecidableEq

def TextFault.message : TextFault → String
  | .unreadable cause => cause.message
  | .notUtf8 => "stream did not contain valid UTF-8"

inductive CommandFault where
  | configUnreadable (config : Path) (cause : TextFault)
  | configRefused (config : Path) (cause : JsonFault)
  | runFailed (cause : RunFault)
  | classUnreadable (file : Path) (cause : FileFault)
  | classRefused (file : Path) (cause : ClassFault)
  deriving DecidableEq

namespace CommandFault

/-- The messages of a fault and of its causes, outermost first. -/
def chain : CommandFault → List String
  | .configUnreadable config cause => [s!"Failed to read config file: {config}", cause.message]
  | .configRefused config cause => [s!"Failed to parse config file: {config}", cause.message]
  | .runFailed cause => cause.chain
  | .classUnreadable file cause => [s!"Failed to read file: {file}", cause.message]
  | .classRefused file cause => [s!"Failed to parse class file: {file}", cause.message]

/-- A cause with its number, if there are several; its further lines are set in as the first is. -/
def causeText (number : Option Nat) (cause : String) : String :=
  let (first, indent) := match number with
    | none => ("    ", "    ")
    | some n => (String.ofList (List.replicate (5 - (toString n).length) ' ') ++ s!"{n}: ", "       ")
  first ++ ("\n" ++ indent).intercalate (cause.splitOn "\n")

/-- The causes, one below the other. -/
def causesText : List String → List String
  | [cause] => [causeText none cause]
  | causes => causes.mapIdx fun i cause => causeText (some i) cause

/-- The fault as it is printed. -/
def text (fault : CommandFault) : String :=
  match fault.chain with
  | [] => "Error: \n"
  | [message] => s!"Error: {message}\n"
  | message :: causes =>
    s!"Error: {message}\n\nCaused by:\n" ++ "\n".intercalate (causesText causes) ++ "\n"

end CommandFault

inductive Answer where
  | report (format : Format) (report : Report)
  | classShown (c : ClassFile)

/-- The answer as it is printed, of a command that took this many thousandths of a second. -/
def Answer.text (elapsed : Nat) : Answer → String
  | .report .json r => (r.describe elapsed).pretty ++ "\n"
  | .report .text r => String.join ((r.lines elapsed).map (· ++ "\n"))
  | .classShown c => c.describe.pretty ++ "\n"

/-- The rules that the options of a run give. -/
def RunArguments.rules (a : RunArguments) : Rules where
  classes := a.classes
  excludedClasses := a.excludedClasses
  packages := a.packages
  excludedPackages := a.excludedPackages
  includeSubpackages := a.includeSubpackages

/-- The file of rules: the one that is named by an option, or else by the environment. -/
def configPath (option environment : Option String) : Option Path :=
  match option with
  | some config => some (.ofText config)
  | none => (environment.filter (· ≠ "")).map .ofText

namespace FileSystem

/-- The text of the file at the path. -/
def readText (fs : FileSystem) (p : Path) : Except TextFault String :=
  match fs.readFile p with
  | .error cause => .error (.unreadable cause)
  | .ok bytes =>
    match String.fromUTF8? ⟨bytes.toArray⟩ with
    | some text => .ok text
    | none => .error .notUtf8

/-- The rules in a file; without one there are none. -/
def loadRules (fs : FileSystem) : Option Path → Except CommandFault Rules
  | none => .ok .none
  | some config => do
    let text ← (fs.readText config).mapError (.configUnreadable config)
    (Rules.ofText text).mapError (.configRefused config)

/-- Shows the class file at the path. -/
def inspect (fs : FileSystem) (file : Path) : Except CommandFault Answer := do
  let bytes ← (fs.readFile file).mapError (.classUnreadable file)
  let c ← (ClassFile.decode bytes).mapError (.classRefused file)
  return .classShown c

/-- Carries out a command; `environment` is the file of rules that the environment names. -/
def perform (fs : FileSystem) (environment : Option String) (invocation : Invocation) :
    Progress FileSystem CommandFault Answer :=
  match invocation.command with
  | .inspect file => ⟨fs, [], fs.inspect (.ofText file)⟩
  | .run args =>
    let loaded : Progress FileSystem CommandFault Rules :=
      ⟨fs, [], fs.loadRules (configPath invocation.config environment)⟩
    loaded.andThen fun fs rules =>
      let rules := rules.merge args.rules
      let told : Progress FileSystem CommandFault Unit :=
        ⟨fs, if rules.isEmpty then [.nothingSelected] else [], .ok ()⟩
      told.andThen fun fs _ =>
        (fs.run rules (.ofText args.input) (.ofText args.output)).mapBoth .runFailed
          (.report args.format)

end FileSystem

/-- The command that a command line asks for. -/
def Invocation.ofCommandLine (words : List String) : Except UsageFault Invocation :=
  Invocation.ofArguments (withImpliedRun words)

/-- The code with which the program ends when a command line is not understood. -/
def UsageFault.exitCode : UsageFault → Nat
  | .help => 0
  | _ => 2

/-- The code with which the program ends when a command has been carried out. -/
def exitCode : Except CommandFault Answer → Nat
  | .ok _ => 0
  | .error _ => 1

end Unseal
