import ModuleReload.Path.Basic

/-!
# Working off the dots of a path

`clean` works off the empty pieces and the dots of a path by looking at nothing but the path: two
dots take the name before them away. Where there is no name before them, they take nothing away at
the root, and stay in front of a relative path. So a rooted path becomes plain, and a relative one
becomes names behind a run of two dots.
-/

namespace ModuleReload.Path

/-- Pieces that are worked off already, with two more dots behind them. -/
def climb (rooted : Bool) (done : List Bytes) : List Bytes :=
  match done.getLast? with
  | none => if rooted then [] else [".."]
  | some ".." => done ++ [".."]
  | some _ => done.dropLast

/-- Pieces that are worked off already, with one more piece behind them. -/
def cleanStep (rooted : Bool) (done : List Bytes) (p : Bytes) : List Bytes :=
  if p = "" ∨ p = "." then done
  else if p = ".." then climb rooted done
  else done ++ [p]

/-- The path that is left when the dots are worked off without looking anything up. -/
def clean (p : Path) : Path :=
  ⟨p.rooted, p.pieces.foldl (cleanStep p.rooted) []⟩

/-- A piece that asks for something other than a name. -/
def isDots (p : Bytes) : Bool :=
  p = "" ∨ p = "." ∨ p = ".."

end ModuleReload.Path
