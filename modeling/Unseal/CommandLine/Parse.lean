import Unseal.CommandLine.Basic
/-
  Reading a command line

  Arguments are read from left to right. An option takes its value behind an
  equals sign or as the next argument; such a next argument is checked only when
  the argument after it is accepted, so a later unknown argument is reported in
  its place. Two dashes end the options. The file of rules can be named before
  and behind the command, and the name behind it counts.

  A command line without a command runs: leading groups that name a file of rules
  are passed over, and when the word behind them is no command and asks for no
  help, `run` is put in front of it.
-/

namespace Unseal

namespace CommandLine

/-- Where on a command line an argument stands. -/
inductive Scope where
  /-- Before the command. -/
  | top
  | run
  | inspect
  deriving DecidableEq

/-- The number of arguments without a name that are taken here. -/
def Scope.operands : Scope → Nat
  | .top => 0
  | .run => 2
  | .inspect => 1

/-- Options that take a value. -/
inductive Valued where
  | config
  | className
  | excludeClass
  | package
  | excludePackage
  | format
  deriving DecidableEq

/-- Options that take none. -/
inductive Switch where
  | includeSubpackages
  | parallel
  | help
  deriving DecidableEq

inductive Flag where
  | valued (v : Valued)
  | switch (s : Switch)
  deriving DecidableEq

/-- The options of a run alone, by name. -/
def runFlag? (name : String) : Option Flag :=
  if name = "class" then some (.valued .className)
  else if name = "exclude-class" then some (.valued .excludeClass)
  else if name = "package" then some (.valued .package)
  else if name = "exclude-package" then some (.valued .excludePackage)
  else if name = "format" then some (.valued .format)
  else if name = "include-subpackages" then some (.switch .includeSubpackages)
  else if name = "parallel" then some (.switch .parallel)
  else none

/-- The option of this name. -/
def Scope.long? (scope : Scope) (name : String) : Option Flag :=
  if name = "config" then some (.valued .config)
  else if name = "help" then some (.switch .help)
  else if scope = .run then runFlag? name
  else none

/-- The option of this letter. -/
def Scope.short? (scope : Scope) (letter : Char) : Option Flag :=
  if letter = 'h' then some (.switch .help)
  else if letter = 'f' ∧ scope = .run then some (.valued .format)
  else none

/-- An argument by its dashes. -/
inductive Word where
  /-- Two dashes alone. -/
  | ending
  | long (name : String) (value : Option String)
  | short (letter : Char) (rest : List Char)
  | plain
  deriving DecidableEq

/-- What stands before the first equals sign, and behind it if there is one. -/
def splitValue (cs : List Char) : String × Option String :=
  match cs.span (· ≠ '=') with
  | (name, _ :: value) => (String.ofList name, some (String.ofList value))
  | (name, []) => (String.ofList name, none)

def Word.ofText (a : String) : Word :=
  match a.toList with
  | ['-', '-'] => .ending
  | '-' :: '-' :: rest =>
    let (name, value) := splitValue rest
    .long name value
  | '-' :: letter :: rest => .short letter rest
  | _ => .plain

/-- The value attached to the letter of an option; an equals sign in front is left out. -/
def attachedValue : List Char → Option String
  | [] => none
  | c :: rest => some (String.ofList (if c = '=' then rest else c :: rest))

/-- What has been read but not yet checked. -/
inductive Pending where
  /-- An option whose value is still to come. -/
  | awaiting (v : Valued)
  | given (v : Valued) (value : String)
  | operand (value : String)
  deriving DecidableEq

/-- What has been read and checked. -/
structure Collected where
  config : Option String
  classes : List String
  excludedClasses : List String
  packages : List String
  excludedPackages : List String
  includeSubpackages : Bool
  parallel : Bool
  format : Option Format
  operands : List String
  deriving DecidableEq

def Collected.empty : Collected := ⟨none, [], [], [], [], false, false, none, []⟩

namespace Collected

/-- Takes the value of an option. -/
def store (c : Collected) (v : Valued) (value : String) : Except UsageFault Collected :=
  match v with
  | .config =>
    if c.config.isSome then .error .argumentConflict
    else if value.isEmpty then .error .invalidValue
    else .ok { c with config := some value }
  | .className => .ok { c with classes := c.classes ++ [value] }
  | .excludeClass => .ok { c with excludedClasses := c.excludedClasses ++ [value] }
  | .package => .ok { c with packages := c.packages ++ [value] }
  | .excludePackage => .ok { c with excludedPackages := c.excludedPackages ++ [value] }
  | .format =>
    if c.format.isSome then .error .argumentConflict
    else
      match Format.ofText? value with
      | some f => .ok { c with format := some f }
      | none => .error .invalidValue

/-- Takes an option without value. -/
def turnOn (c : Collected) : Switch → Except UsageFault Collected
  | .help => .error .help
  | .includeSubpackages =>
    if c.includeSubpackages then .error .argumentConflict
    else .ok { c with includeSubpackages := true }
  | .parallel => if c.parallel then .error .argumentConflict else .ok { c with parallel := true }

/-- Takes an argument without a name; it is the path of a file and not empty. -/
def addOperand (c : Collected) (value : String) : Except UsageFault Collected :=
  if value.isEmpty then .error .invalidValue
  else .ok { c with operands := c.operands ++ [value] }

/-- Checks what is pending. -/
def settle (c : Collected) : Option Pending → Except UsageFault Collected
  | none => .ok c
  | some (.awaiting _) => .error .invalidValue
  | some (.given v value) => c.store v value
  | some (.operand value) => c.addOperand value

end Collected

/-- How far a command line has been read. -/
structure Progress where
  collected : Collected
  pending : Option Pending
  /-- The options have been ended. -/
  ended : Bool
  deriving DecidableEq

namespace Progress

def start : Progress := ⟨Collected.empty, none, false⟩

def settled (p : Progress) : Except UsageFault Collected := p.collected.settle p.pending

/-- The number of arguments without a name read so far. -/
def operandCount (p : Progress) : Nat :=
  p.collected.operands.length +
    match p.pending with
    | some (.operand _) => 1
    | _ => 0

/-- The next argument is the value of an option. -/
def isAwaiting (p : Progress) : Bool :=
  match p.pending with
  | some (.awaiting _) => !p.ended
  | _ => false

/-- Reads an option with a value behind it or none. -/
def readFlag (p : Progress) (flag : Flag) (value : Option String) : Except UsageFault Progress :=
  match flag, value with
  | .valued v, some value => do
    let c ← (← p.settled).store v value
    return { p with collected := c, pending := none }
  | .valued v, none => do
    return { p with collected := ← p.settled, pending := some (.awaiting v) }
  | .switch _, some _ => .error .tooManyValues
  | .switch s, none => do
    let c ← (← p.settled).turnOn s
    return { p with collected := c, pending := none }

/-- Reads an argument without a name. -/
def readOperand (scope : Scope) (p : Progress) (a : String) : Except UsageFault Progress :=
  if p.operandCount < scope.operands then do
    return { p with collected := ← p.settled, pending := some (.operand a) }
  else if scope = .top then
    if p.ended ∧ (a = "run" ∨ a = "inspect" ∨ a = "help") then .error .unknownArgument
    else .error .invalidCommand
  else .error .unknownArgument

/-- Reads an argument that is a value or has no name. -/
def readPlain (scope : Scope) (p : Progress) (a : String) : Except UsageFault Progress :=
  match p.pending, p.ended with
  | some (.awaiting v), false => .ok { p with pending := some (.given v a) }
  | _, _ => p.readOperand scope a

/-- Reads an argument that is no command. -/
def read (scope : Scope) (p : Progress) (a : String) : Except UsageFault Progress :=
  if p.ended then p.readOperand scope a
  else
    match Word.ofText a with
    | .ending => .ok { p with ended := true }
    | .long name value =>
      match scope.long? name with
      | some flag => p.readFlag flag value
      | none => .error .unknownArgument
    | .short letter rest =>
      match scope.short? letter with
      | some (.valued v) => p.readFlag (.valued v) (attachedValue rest)
      | some (.switch s) => p.readFlag (.switch s) none
      | none => .error .unknownArgument
    | .plain => p.readPlain scope a

/-- Reads arguments to the end of the command line. -/
def readAll (scope : Scope) (p : Progress) : List String → Except UsageFault Collected
  | [] => p.settled
  | a :: rest =>
    match p.read scope a with
    | .error e => .error e
    | .ok p => p.readAll scope rest

end Progress

/-- The run that the collected arguments ask for. -/
def Collected.run (c : Collected) : Except UsageFault Command :=
  match c.operands with
  | [input, output] =>
    .ok (.run {
      input, output, classes := c.classes, excludedClasses := c.excludedClasses,
      packages := c.packages, excludedPackages := c.excludedPackages,
      includeSubpackages := c.includeSubpackages, parallel := c.parallel,
      format := c.format.getD .json })
  | _ => .error .missingArgument

/-- The class file that the collected arguments ask to be shown. -/
def Collected.inspect (c : Collected) : Except UsageFault Command :=
  match c.operands with
  | [classFile] => .ok (.inspect classFile)
  | _ => .error .missingArgument

/-- What follows the word `help`: nothing, or one command that help is asked about. -/
def helpOn : List String → UsageFault
  | [] => .help
  | [a] => if a = "run" ∨ a = "inspect" ∨ a = "help" then .help else .invalidCommand
  | _ => .invalidCommand

/-- Reads the arguments of a command behind those before it. -/
def readCommand (p : Progress) (scope : Scope) (finish : Collected → Except UsageFault Command)
    (rest : List String) : Except UsageFault Invocation := do
  let inner ← Progress.start.readAll scope rest
  let command ← finish inner
  let outer ← p.settled
  return { config := inner.config <|> outer.config, command }

/-- Reads arguments up to the command and then those of the command. -/
def readTop (p : Progress) : List String → Except UsageFault Invocation
  | [] =>
    match p.settled with
    | .error e => .error e
    | .ok c => if c.config.isSome then .error .missingCommand else .error .nothingGiven
  | a :: rest =>
    if !p.ended ∧ !p.isAwaiting ∧ a = "run" then readCommand p .run Collected.run rest
    else if !p.ended ∧ !p.isAwaiting ∧ a = "inspect" then
      readCommand p .inspect Collected.inspect rest
    else if !p.ended ∧ !p.isAwaiting ∧ a = "help" then .error (helpOn rest)
    else
      match p.read .top a with
      | .error e => .error e
      | .ok p => readTop p rest

end CommandLine

/-- The command that the arguments ask for. -/
def Invocation.ofArguments (args : List String) : Except UsageFault Invocation :=
  CommandLine.readTop CommandLine.Progress.start args

/-- The words that stand for themselves where a command is expected. -/
def commandWords : List String := ["run", "inspect", "help", "-h", "--help"]

/-- The argument names a file of rules after an equals sign. -/
def isConfigWithValue (a : String) : Bool := "--config=".toList.isPrefixOf a.toList

/-- The arguments with the command `run` where no command is given. -/
def withImpliedRun : List String → List String
  | [] => []
  | [a] =>
    if a = "--config" ∨ isConfigWithValue a ∨ a ∈ commandWords then [a] else ["run", a]
  | a :: b :: rest =>
    if a = "--config" then a :: b :: withImpliedRun rest
    else if isConfigWithValue a then a :: withImpliedRun (b :: rest)
    else if a ∈ commandWords then a :: b :: rest
    else "run" :: a :: b :: rest

end Unseal
