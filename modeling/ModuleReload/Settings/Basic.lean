import ModuleReload.Name.Dotted
import ModuleReload.OwnedRoots
import ModuleReload.Text.Blank
import ModuleReload.Toml.Fault

/-!
# Settings

What a user sets for a project: how talkative the program is, which directories are owned, and, for
watching, how long changes must have rested and which modules are looked after. Paths are kept as
they are written and resolved against the directory of the settings when they are used.

Two variables of the environment count more than the file. Settings that make no sense are refused
by `Settings.validate`, with the first fault found.
-/

namespace ModuleReload

/-- The settings of a project. -/
structure Settings where
  /-- The file that the settings were read from. -/
  file : Option Path
  /-- The directory that paths are resolved against. -/
  root : Path
  verbosity : Nat
  /-- Directories whose modules may be reloaded. -/
  roots : List Path
  /-- Further directories that modules are loaded from, owned unless excluded. -/
  searchPath : List Path
  /-- Directories whose parts of the search path are not owned. -/
  exclude : List Path
  /-- The milliseconds that changes must have rested before they are acted on. -/
  debounce : Nat
  /-- The modules to look after; none stands for all. -/
  entries : List String
  deriving DecidableEq, Repr

namespace Settings

def standard : Settings :=
  ⟨none, ⟨false, []⟩, 0, [], [], [], 300, []⟩

/-! ## Errors -/

/-- Why settings make no sense. -/
inductive Invalid
  | verbosity (n : Nat)
  | debounce
  | entry (name : String)
  /-- The variable for the verbosity holds no small number. -/
  | verbosityVariable (raw : String)
  deriving DecidableEq, Repr

/-- Why settings cannot be had. -/
inductive Error
  /-- There is no directory to look for them from. -/
  | nowhere (cause : FileSystem.Failure)
  /-- The file that was asked for is not there. -/
  | missing (p : Path)
  | unreadable (p : Path) (cause : FileSystem.Failure)
  /-- The text is no document, or a field is of the wrong kind. -/
  | malformed (fault : Toml.Fault)
  | invalid (reason : Invalid)
  deriving DecidableEq, Repr

/-- The greatest verbosity that means anything. -/
def greatestVerbosity : Nat := 2

/-- The variable that replaces the verbosity. -/
def verbosityVariable : String := "AUTORELOAD_VERBOSITY"

/-- The variable that adds a root. -/
def rootVariable : String := "AUTORELOAD_ROOT"

def Invalid.message : Invalid → String
  | verbosity n => s!"reload.verbosity must be between 0 and {greatestVerbosity}, got {n}"
  | debounce => "watch.debounce_ms must be greater than 0"
  | entry name => "watch.entries: \x60" ++ name ++ "\x60 is not a dotted module name"
  | verbosityVariable raw =>
    Settings.verbosityVariable ++ " must be an integer, got \x60" ++ raw ++ "\x60"

def Error.message : Error → String
  | nowhere _ => "Failed to get current working directory"
  | missing p => "IO error when reading \x60" ++ p.text ++ "\x60"
  | unreadable p _ => "IO error when reading \x60" ++ p.text ++ "\x60"
  | malformed _ => "Config file parsing error"
  | invalid reason => "Config validation error: " ++ reason.message

def Error.cause? : Error → Option String
  | nowhere cause => some cause.message
  | missing _ => some "config file not found"
  | unreadable _ cause => some cause.message
  | malformed fault => some fault.message
  | invalid _ => none

def Error.fullMessage (e : Error) : String :=
  match e.cause? with
  | some cause => e.message ++ ": " ++ cause
  | none => e.message

/-! ## The environment -/

/-- The variables of the environment that settings depend on. -/
structure Environment where
  verbosity : Option String
  root : Option String
  deriving DecidableEq, Repr

/-- A number below 256, in decimal digits, possibly after a plus and between blanks. -/
def smallNumber? (raw : String) : Option Nat :=
  let digits := match Text.trim raw.toList with
    | '+' :: ds => ds
    | ds => ds
  if digits.isEmpty || !digits.all Char.isDigit then none
  else
    let n := digits.foldl (fun n c ↦ n * 10 + (c.toNat - '0'.toNat)) 0
    if n < 256 then some n else none

/-- The settings with another verbosity, if the environment asks for one. -/
def withVerbosityOf (env : Environment) (s : Settings) : Except Error Settings :=
  match env.verbosity with
  | none => .ok s
  | some raw =>
    match smallNumber? raw with
    | some n => .ok { s with verbosity := n }
    | none => .error (.invalid (.verbosityVariable raw))

/-- The settings with one more root, if the environment names one. -/
def withRootOf (env : Environment) (s : Settings) : Settings :=
  match env.root with
  | none | some "" => s
  | some root => { s with roots := s.roots ++ [.ofString root] }

/-- The settings as the environment changes them. -/
def applyEnvironment (env : Environment) (s : Settings) : Except Error Settings :=
  (s.withVerbosityOf env).map (withRootOf env)

/-! ## Validity -/

/-- The first fault of the settings, if there is one. -/
def fault? (s : Settings) : Option Invalid :=
  if greatestVerbosity < s.verbosity then some (.verbosity s.verbosity)
  else if s.debounce = 0 then some .debounce
  else (s.entries.find? (!Name.isDotted ·)).map .entry

/-- Refuses settings that make no sense. -/
def validate (s : Settings) : Except Error Unit :=
  match s.fault? with
  | some reason => .error (.invalid reason)
  | none => .ok ()

/-! ## Paths -/

/-- The settings with their paths resolved against a directory. -/
def setRoot (fs : FileSystem) (p : Path) (s : Settings) : Settings :=
  { s with root := fs.normalize p }

/-- A path resolved against the directory of the settings. -/
def rootJoin (s : Settings) (p : Path) : Path :=
  s.root.join p

/-- The directories that the settings own, and notices for what is left out. -/
def ownedRoots (fs : FileSystem) (s : Settings) : OwnedRoots × List Notice :=
  OwnedRoots.ofSearchPath fs (s.roots.map s.rootJoin) (s.searchPath.map s.rootJoin)
    (s.exclude.map s.rootJoin)

end Settings

end ModuleReload
