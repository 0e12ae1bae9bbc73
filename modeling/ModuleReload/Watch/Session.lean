import ModuleReload.Engine.Handover
import ModuleReload.Engine.Walk
import ModuleReload.Settings.Load
import ModuleReload.Terminal.Basic
import ModuleReload.Tree.Basic
import ModuleReload.Watch.Change

/-!
# Watching a tree

A session holds a scanned tree, the engine that reloads its modules, the settings both were made
from, and the terminal that it reports to. It does one thing over and over: a *cycle*, which
reloads whatever is due among its targets and what they depend on. The targets are the modules
asked for by the user, else those in the settings, else all modules of the tree.

A batch of changes (`Session.apply`) is taken up before the cycle. If the file of the settings is
among them, the settings are loaded again and a new engine takes over what the old one remembers;
settings that cannot be had leave everything as it is. If a file came or went, the tree is
refreshed, and remembered dependencies are forgotten if that changed the tree, since they hold
handles on modules that are gone and lack the new ones.

The outcome of a cycle is shown as a status block (`Session.report`), which replaces the one before
it unless the session has written lines since.
-/

namespace ModuleReload

/-! ## Outcomes -/

/-- What a cycle came to. -/
inductive Outcome
  /-- Modules were reloaded; their names in ascending order. -/
  | reloaded (names : List String)
  | unchanged
  | failed (e : ReloadError)
  deriving DecidableEq, Repr

def Outcome.status : Outcome → Status
  | reloaded names => .success ("reloaded " ++ Text.listed names)
  | unchanged => .unchanged "no modules reloaded"
  | failed e => .failure e.message e.cause

/-! ## Sessions -/

/-- A watched tree. -/
structure Session where
  tree : SourceTree
  engine : Engine
  settings : Settings
  /-- The modules that the user asks for; none stands for those in the settings. -/
  entries : List String
  /-- The verbosity that loading the settings again does not go below. -/
  floor : Nat
  environment : Settings.Environment
  terminal : Terminal

namespace Session

/-- The session after notices have been given to its terminal. -/
def log (s : Session) (notices : List Notice) : Session :=
  { s with terminal := s.terminal.log notices }

/-- The session whose next status block starts below what is written. -/
def detach (s : Session) : Session :=
  { s with terminal := s.terminal.detach }

/-- The roots that settings own, with the root of the watched tree. -/
def rootsOf (fs : FileSystem) (settings : Settings) (root : Path) : OwnedRoots × List Notice :=
  let (roots, notices) := settings.ownedRoots fs
  (roots.push fs root, notices)

/-- Begins to watch the tree below a directory. -/
def start (fs : FileSystem) (environment : Settings.Environment) (terminal : Terminal)
    (root : Path) (entries : List String) (settings : Settings) :
    Except SourceTree.NotADirectory Session := do
  let (tree, scanned) ← SourceTree.scan fs root
  let (roots, notices) := rootsOf fs settings tree.root
  let terminal := terminal.log (scanned ++ notices)
  return ⟨tree, .new roots, settings, entries, terminal.verbosity, environment, terminal⟩

/-! ## Cycles -/

/-- The names of the modules to look after. -/
def targets (s : Session) : List String :=
  if !s.entries.isEmpty then s.entries
  else if !s.settings.entries.isEmpty then s.settings.entries
  else s.tree.names

/-- Says that a target is no module of the tree. -/
def missing (name : String) : Notice :=
  ⟨"watch", .debug, "entry " ++ name ++ " is not in the tree"⟩

def autoreload (fs : FileSystem) (m : Module) (s : Session) : Except ReloadError Bool × Session :=
  let run : Run SourceTree Unit := .start s.engine s.tree
  let (result, run) := run.autoreload (s.tree.host fs) m false
  (result, { s with engine := run.engine, tree := run.state }.log (Event.notices run.events))

/-- Reloads what is due for the targets in turn, up to the first failure. -/
def autoreloadAll (fs : FileSystem) : List String → Session → Option ReloadError × Session
  | [], s => (none, s)
  | name :: names, s =>
    match s.tree.module? name with
    | none => autoreloadAll fs names (s.log [missing name])
    | some m =>
      match s.autoreload fs m with
      | (.error e, s) => (some e, s)
      | (.ok _, s) => autoreloadAll fs names s

/-- Reloads what is due for all targets: what that came to. -/
def cycle (fs : FileSystem) (s : Session) : Outcome × Session :=
  -- What bears a later time than this was reloaded in the cycle.
  let mark := s.engine.clock?
  match autoreloadAll fs s.targets s with
  | (some e, s) => (.failed e, s)
  | (none, s) =>
    match s.engine.times.after mark with
    | [] => (.unchanged, s)
    | names => (.reloaded names, s)

/-! ## Changes -/

/-- Whether the file of the settings is among changed files. -/
def settingsChanged (fs : FileSystem) (changes : PendingChanges) (s : Session) : Bool :=
  s.settings.file.any fun p ↦ (changes.get? (fs.normalize p)).isSome

/-- Says that the settings were loaded again. -/
def adopted : Notice :=
  ⟨"watch", .always, "config reloaded"⟩

/-- Says that the settings could not be loaded again. -/
def refused (e : Settings.Error) : Notice :=
  ⟨"error", .always, "config not reloaded: " ++ e.fullMessage⟩

/-- The session with other settings, and an engine made from them that remembers what the old one
did. -/
def adopt (fs : FileSystem) (settings : Settings) (s : Session) : Session :=
  -- Settings may ask for more than the command line, and not for less.
  let s := { s with terminal.verbosity := max settings.verbosity s.floor }
  let (roots, notices) := rootsOf fs settings s.tree.root
  let engine := (Engine.new roots).restore s.engine.take.1
  ({ s with engine, settings }.log (notices ++ [adopted])).detach

/-- Loads the settings again. If they cannot be had, the old ones stay. -/
def reloadSettings (fs : FileSystem) (s : Session) : Session :=
  let (loaded, notices) := Settings.load fs s.environment s.settings.file
  let s := s.log notices
  match loaded with
  | .ok settings => s.adopt fs settings
  | .error e => (s.log [refused e]).detach

/-- Tells what a refresh changed. -/
def refreshed (c : SourceTree.Changes) : Notice :=
  ⟨"watch", .always, "modules added: [" ++ Text.listed c.added ++ "], removed: [" ++
    Text.listed c.removed ++ "]"⟩

/-- Takes up the files that came and went. -/
def refresh (fs : FileSystem) (s : Session) : Session :=
  let (changes, tree, notices) := s.tree.refresh fs
  let s := { s with tree }.log notices
  -- The dependencies that are remembered may have gone.
  if changes.isEmpty then s
  else ({ s with engine := s.engine.forgetDependencies }.log [refreshed changes]).detach

/-- Whether a file came or went. -/
def comesOrGoes (changes : PendingChanges) : Bool :=
  changes.entries.any (·.2 ≠ .modified)

def apply (fs : FileSystem) (changes : PendingChanges) (s : Session) : Outcome × Session :=
  let s := if s.settingsChanged fs changes then s.reloadSettings fs else s
  -- Where files were only modified, the cycle alone sees to them.
  let s := if comesOrGoes changes then s.refresh fs else s
  s.cycle fs

/-! ## Reports -/

/-- Shows an outcome. Whatever is not unchanged has written lines. -/
def report (time : TimeOfDay) (outcome : Outcome) (s : Session) : Session :=
  let s := match outcome with
    | .unchanged => s
    | _ => s.detach
  { s with terminal := s.terminal.report time outcome.status }

end Session

end ModuleReload
