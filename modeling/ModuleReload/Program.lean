import ModuleReload.CommandLine.Reading
import ModuleReload.Graph.Drawing
import ModuleReload.ImportReport
import ModuleReload.Watch.Session

/-!
# The program

One run of the program, as a function of the arguments, the environment and the files: what it
writes, and its exit code. Settings are loaded before anything is done, also where the command has
no use for them, and a fault in them ends the run. The program is as talkative as the command line
or the settings ask, whichever ask for more.

Watching ends after the first cycle here, since no signals come from files that do not change.
-/

namespace ModuleReload.Program

/-! ## Results -/

/-- What a run of the program leaves behind. -/
structure Exit where
  code : Nat
  output : String
  /-- What is written beside the output: notices and errors. -/
  messages : String
  deriving DecidableEq, Repr

/-- Why a command was not carried out. -/
inductive Failure
  | settings (e : Settings.Error)
  | imports (e : ImportReport.Error)
  | tree (e : SourceTree.NotADirectory)
  deriving DecidableEq, Repr

namespace Failure

/-- The wording of a failure, without its cause. -/
def message : Failure → String
  | settings e => e.message
  | imports e => e.message
  | tree e => e.message

def cause? : Failure → Option String
  | settings e => e.cause?
  | _ => none

/-- How a failure is told at the end of a run, its cause indented below it. -/
def report (f : Failure) : String :=
  let below := match f.cause? with
    | none => ""
    | some cause => "\n\nCaused by:" ++ String.join ((Text.cut '\n' cause).map ("\n    " ++ ·))
  "Error: " ++ f.message ++ below ++ "\n"

end Failure

/-! ## Help -/

/-- The name of the program and its version. -/
def version : String := "autoreload 0.3.0"

def help : String :=
  "Reload modules whose sources changed, dependencies first\n\n" ++
  "Usage: autoreload [OPTIONS] <COMMAND>\n\n" ++
  "Commands:\n" ++
  "  imports  Print the imports discovered in a source file [aliases: i]\n" ++
  "  graph    Print the import graph of a source tree as Graphviz DOT [aliases: g]\n" ++
  "  watch    Watch a source tree and reload changed modules [aliases: w]\n" ++
  "  help     Print this message or the help of the given subcommand(s)\n\n" ++
  "Options:\n" ++
  "      --color <COLOR>    Control colored output (auto, always, never) " ++
  "[default: auto] [possible values: auto, always, never]\n" ++
  "  -v, --verbose...       Increase diagnostic output (-v traversal, -vv discovery)\n" ++
  "  -C, --config <CONFIG>  Config file path (default: search upward for autoreload.toml)\n" ++
  "  -h, --help             Print help\n" ++
  "  -V, --version          Print version\n"

/-- The end of a run that a usage error leaves nothing to do. -/
def ofUsageError (e : UsageError) : Exit :=
  match e with
  | .help => ⟨e.exitCode, help, ""⟩
  | .version => ⟨e.exitCode, version ++ "\n", ""⟩
  | _ => ⟨e.exitCode, "", help⟩

/-! ## Commands -/

/-- The scope that a command searches for imports. -/
def scopeFor (deep : Bool) : Source.Scope :=
  if deep then .deep else .topLevel

/-- Tells how many modules a graph has. -/
def scanned (g : ImportGraph) : Notice :=
  ⟨"graph", .debug, s!"{g.nodes.length} modules under " ++ g.root.text⟩

/-- Tells what is watched. -/
def watching (s : Session) : Notice :=
  ⟨"watch", .always, "watching " ++ s.tree.root.text ++ s!" ({s.tree.modules.length} modules)"⟩

/-- Carries a command out: the output, and the terminal with the notices. -/
def carryOut (fs : FileSystem) (env : Settings.Environment) (settings : Settings) (t : Terminal) :
    Command → Except Failure (String × Terminal)
  | .imports file deep module package =>
    match ImportReport.ofFile fs (scopeFor deep) file module package with
    | .error e => .error (.imports e)
    | .ok (lines, notices) => .ok (String.join (lines.map (· ++ "\n")), t.log notices)
  | .graph root deep =>
    match ImportGraph.scan fs (scopeFor deep) root with
    | .error e => .error (.tree e)
    | .ok (g, notices) => .ok (g.draw, t.log (notices ++ [scanned g]))
  | .watch root entries =>
    match Session.start fs env t root entries settings with
    | .error e => .error (.tree e)
    | .ok s =>
      let (_, s) := s.cycle fs
      .ok ("", (s.log [watching s]).terminal)

/-! ## The run -/

/-- The end of a run that failed, after what has been written to the terminal. -/
def failed (t : Terminal) (f : Failure) : Exit :=
  ⟨1, "", t.text ++ f.report⟩

/-- Loads the settings and carries out what the command line asks for. -/
def perform (fs : FileSystem) (env : Settings.Environment) (c : CommandLine) : Exit :=
  let (loaded, notices) := Settings.load fs env c.config
  let t := (Terminal.new c.verbosity).log notices
  match loaded with
  | .error e => failed t (.settings e)
  | .ok settings =>
    let t := { t with verbosity := max c.verbosity settings.verbosity }
    match carryOut fs env settings t c.command with
    | .error f => failed t f
    | .ok (output, t) => ⟨0, output, t.text⟩

def run (fs : FileSystem) (env : Settings.Environment) (args : List String) : Exit :=
  match CommandLine.ofArguments args with
  | .error e => ofUsageError e
  | .ok c => perform fs env c

end ModuleReload.Program
