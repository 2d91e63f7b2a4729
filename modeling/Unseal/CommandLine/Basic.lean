/-
  Command lines — what the program can be asked to do

  There are two commands: to revise a tree of class files and to show one class
  file. Both can be given a file of rules.
-/

namespace Unseal

/-- How a report is written. -/
inductive Format where
  | json
  | text
  deriving DecidableEq

def Format.ofText? (s : String) : Option Format :=
  if s = "json" then some .json else if s = "text" then some .text else none

/-- What a run is asked to do. -/
structure RunArguments where
  input : String
  output : String
  classes : List String
  excludedClasses : List String
  packages : List String
  excludedPackages : List String
  includeSubpackages : Bool
  parallel : Bool
  format : Format
  deriving DecidableEq

inductive Command where
  | run (args : RunArguments)
  | inspect (classFile : String)
  deriving DecidableEq

/-- A command and the file of rules it names. -/
structure Invocation where
  config : Option String
  command : Command
  deriving DecidableEq

/-- Why a command line is not carried out. -/
inductive UsageFault where
  | unknownArgument
  | invalidValue
  | missingArgument
  | argumentConflict
  | tooManyValues
  | missingCommand
  | invalidCommand
  /-- Help was asked for. -/
  | help
  /-- The command line is empty. -/
  | nothingGiven
  deriving DecidableEq

def UsageFault.message : UsageFault → String
  | .unknownArgument => "unexpected argument"
  | .invalidValue => "invalid or missing value of an argument"
  | .missingArgument => "a required argument is missing"
  | .argumentConflict => "an argument is given more than once"
  | .tooManyValues => "an argument without value is given one"
  | .missingCommand => "a command is required"
  | .invalidCommand => "unrecognized command"
  | .help | .nothingGiven =>
    "commands: run INPUT OUTPUT, inspect CLASS_FILE, help"

end Unseal
