import ModuleReload.Terminal.Status

/-!
# The terminal

A terminal is what has been written to it so far, together with what decides the next writing: the
verbosity, which notices must pass, and the height of the status block that the next one is to
replace. A block moves up over the one before it and erases what it finds there, so the terminal
has to be told (`detach`) when lines have been written since. Then the next block starts below
them.
-/

namespace ModuleReload

/-- One thing written to a terminal. -/
inductive Writing
  | line (n : Notice)
  /-- A block, after moving up so many lines and erasing all from there on. -/
  | block (erased : Option Nat) (time : TimeOfDay) (s : Status)
  deriving DecidableEq, Repr

namespace Writing

/-- The control sequences that erase the given number of lines above. -/
def erasure : Option Nat → String
  | none => ""
  | some n => s!"\x1b[{n}A\x1b[J"

/-- What goes out to the terminal. -/
def text : Writing → String
  | line n => n.line ++ "\n"
  | block erased time s => erasure erased ++ s.text time

end Writing

/-- What has been written to a terminal, and what decides the next writing. -/
structure Terminal where
  verbosity : Nat
  /-- The lines of the block that the next one replaces, or 0. -/
  height : Nat
  /-- All that was written, in order. -/
  written : List Writing
  deriving DecidableEq, Repr

namespace Terminal

/-- A terminal on which nothing is written yet. -/
def new (verbosity : Nat) : Terminal :=
  ⟨verbosity, 0, []⟩

/-- Writes the notices that the verbosity lets pass. -/
def log (t : Terminal) (notices : List Notice) : Terminal :=
  { t with written := t.written ++ (notices.filter (·.shownAt t.verbosity)).map .line }

/-- Lets the next block start below what is written. -/
def detach (t : Terminal) : Terminal :=
  { t with height := 0 }

/-- One more than the greatest distance that the cursor can move at once. -/
def cursorRange : Nat := 65536

/-- How far the next block moves up, if it erases anything. -/
def erased (t : Terminal) : Option Nat :=
  if t.height = 0 then none else some (t.height % cursorRange)

/-- Writes a status block in place of the one before it. -/
def report (t : Terminal) (time : TimeOfDay) (s : Status) : Terminal :=
  { t with height := s.height, written := t.written ++ [.block t.erased time s] }

/-- The text of all that was written. -/
def text (t : Terminal) : String :=
  String.join (t.written.map Writing.text)

end Terminal

end ModuleReload
