import ModuleReload.Path.Basic

/-!
# Command lines

What a user can ask the program for: one of three commands on a file or a directory, under options
that hold for all of them. What is not of this form is refused with a `UsageError`, and so are the
requests for help and for the version, which end the program as well.
-/

namespace ModuleReload

/-- When output is to be coloured. -/
inductive ColourChoice
  | auto
  | always
  | never
  deriving DecidableEq, Repr

namespace ColourChoice

def all : List ColourChoice :=
  [auto, always, never]

def label : ColourChoice → String
  | auto => "auto"
  | always => "always"
  | never => "never"

/-- The choice that a word stands for. -/
def ofLabel? (word : String) : Option ColourChoice :=
  all.find? (·.label == word)

end ColourChoice

/-- What the program is to do. -/
inductive Command
  /-- Report the imports of a file; its module and package may be named. -/
  | imports (file : Path) (deep : Bool) (module package : Option String)
  /-- Draw the import graph of the sources below a directory. -/
  | graph (root : Path) (deep : Bool)
  /-- Watch the sources below a directory. -/
  | watch (root : Path) (entries : List String)
  deriving DecidableEq, Repr

/-- What the user asks for. -/
structure CommandLine where
  colour : ColourChoice
  verbosity : Nat
  /-- The file to read settings from. -/
  config : Option Path
  command : Command
  deriving DecidableEq, Repr

/-- Why there is nothing to carry out. -/
inductive UsageError
  /-- Help was asked for. -/
  | help
  /-- The version was asked for. -/
  | version
  /-- An option that does not exist, or an operand too many. -/
  | unknownArgument
  /-- An option or operand with a value it cannot have, or an option without its value. -/
  | invalidValue
  /-- An option twice that may be given once. -/
  | givenTwice
  /-- A value for an option that takes none. -/
  | valueForFlag
  | unknownCommand
  | missingOperand
  | missingCommand
  /-- Nothing was asked for at all. -/
  | nothing
  deriving DecidableEq, Repr

/-- The exit code of a program that ends with a usage error. Asking for help is no mistake. -/
def UsageError.exitCode : UsageError → Nat
  | help => 0
  | version => 0
  | _ => 2

end ModuleReload
