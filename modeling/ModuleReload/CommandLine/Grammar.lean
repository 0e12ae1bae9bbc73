import ModuleReload.CommandLine.Basic

/-!
# The options of each command

A grammar says what may follow the name of the program, or of a command: options, by their names
and letters, at most one operand, and the names of commands. Options that hold for all commands may
stand before and after the command.
-/

namespace ModuleReload

/-! ## Options -/

/-- How an option may be given. -/
inductive SwitchKind
  /-- At most once, without a value. -/
  | flag
  /-- Any number of times, without a value. -/
  | counted
  /-- At most once, with a value. -/
  | single
  /-- Any number of times, each with a value. -/
  | repeated
  /-- In place of anything else; it asks for help. -/
  | help
  /-- In place of anything else; it asks for the version. -/
  | version
  deriving DecidableEq, Repr

/-- Whether an option has a value. -/
def SwitchKind.takesValue : SwitchKind → Bool
  | .single => true
  | .repeated => true
  | _ => false

/-- An option, or an operand, which is an option without a name to be given by. -/
structure Switch where
  name : String
  letter : Option Char
  kind : SwitchKind
  /-- Which values it may have. -/
  accepts : String → Bool

namespace Switch

/-- An option that may have any value. -/
def ofKind (name : String) (letter : Char) (kind : SwitchKind) : Switch :=
  ⟨name, some letter, kind, fun _ ↦ true⟩

/-- The operand of that name, a path. -/
def operand (name : String) : Switch :=
  ⟨name, none, .single, (!·.isEmpty)⟩

def colour : Switch :=
  ⟨"color", none, .single, fun word ↦ (ColourChoice.ofLabel? word).isSome⟩

def verbose : Switch :=
  ofKind "verbose" 'v' .counted

def config : Switch :=
  ⟨"config", some 'C', .single, (!·.isEmpty)⟩

def deep : Switch :=
  ofKind "deep" 'd' .flag

def module : Switch :=
  ofKind "module" 'm' .single

def package : Switch :=
  ofKind "package" 'p' .single

def entry : Switch :=
  ofKind "entry" 'e' .repeated

def help : Switch :=
  ofKind "help" 'h' .help

def version : Switch :=
  ofKind "version" 'V' .version

def file : Switch :=
  operand "file"

def root : Switch :=
  operand "root"

end Switch

/-! ## Grammars -/

/-- The commands by kind. -/
inductive CommandName
  | imports
  | graph
  | watch
  | help
  deriving DecidableEq, Repr

def CommandName.ofWord? : String → Option CommandName
  | "imports" => some imports
  | "i" => some imports
  | "graph" => some graph
  | "g" => some graph
  | "watch" => some watch
  | "w" => some watch
  | "help" => some help
  | _ => none

/-- What may stand on a command line from some point on. -/
structure Grammar where
  switches : List Switch
  operand : Option Switch
  /-- The command that a word stands for, where there are commands. -/
  command? : Option (String → Option CommandName)

namespace Grammar

/-- The options that hold for all commands. -/
def common : List Switch :=
  [.colour, .verbose, .config, .help]

/-- What may follow the name of the program. -/
def program : Grammar :=
  ⟨common ++ [.version], none, some CommandName.ofWord?⟩

/-- What may follow a command that reports on a file. -/
def imports : Grammar :=
  ⟨common ++ [.deep, .module, .package], some .file, none⟩

/-- What may follow a command that draws. -/
def graph : Grammar :=
  ⟨common ++ [.deep], some .root, none⟩

/-- What may follow a command that watches. -/
def watch : Grammar :=
  ⟨common ++ [.entry], some .root, none⟩

/-- The option of a name. -/
def named? (g : Grammar) (name : String) : Option Switch :=
  g.switches.find? (·.name == name)

/-- The option of a letter. -/
def lettered? (g : Grammar) (letter : Char) : Option Switch :=
  g.switches.find? (·.letter == some letter)

end Grammar

end ModuleReload
