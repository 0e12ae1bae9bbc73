/-!
# Notices

What a run has to tell is a list of notices. A notice names its topic, and its level says how
talkative the reader must ask the program to be before the notice is shown. Whoever produces
notices hands back all of them; whoever owns the terminal decides which are shown
(`Notice.shownAt`) and writes them (`Notice.line`).
-/

namespace ModuleReload

/-- How talkative the program must be for a notice to be shown. -/
inductive Level
  | always
  | debug
  | trace
  deriving DecidableEq, Repr

/-- The least verbosity at which a level is shown. -/
def Level.verbosity : Level → Nat
  | .always => 0
  | .debug => 1
  | .trace => 2

/-- One line of a program's account of what it does. -/
structure Notice where
  topic : String
  level : Level
  text : String
  deriving DecidableEq, Repr

namespace Notice

/-- Whether a notice is shown at the given verbosity. -/
def shownAt (verbosity : Nat) (n : Notice) : Bool :=
  n.level.verbosity ≤ verbosity

/-- A control sequence that changes the style of what follows. -/
def style (code : Nat) : String :=
  s!"\x1b[{code}m"

/-- The colour that a topic is written in. Case does not matter. -/
def colour (topic : String) : Nat :=
  match (String.ofList (topic.toList.map Char.toLower)) with
  | "reload" => 94
  | "watch" => 92
  | "error" => 91
  | _ => 93

/-- The written form of a notice: its topic in bold and colour, then its text. -/
def line (n : Notice) : String :=
  style 1 ++ style (colour n.topic) ++ "[" ++ n.topic ++ "]" ++ style 39 ++ style 0 ++ " " ++ n.text

end Notice

end ModuleReload
