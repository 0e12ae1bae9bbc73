import ModuleReload.FileSystem.Search
import ModuleReload.Path.Clean

/-!
# Normalization

The normal form of a path is the plain path of what it leads to, with no links on the way. A path
that leads nowhere is seen from the working directory and its dots are worked off without looking
anything up, which again gives a plain path. Only in a working directory that has been removed does
a relative path stay relative: neither can what it leads to be found there, nor does the directory
have a path.

Here paths are followed step by step, so they may be longer than those that can be looked up.
-/

namespace ModuleReload.FileSystem

/-- The location of what a path leads to. A relative path leads nowhere if the working directory
has no path. -/
def place? (fs : FileSystem) (p : Path) : Option Location :=
  if containsNull p ∨ p.isEmpty then none
  else match fs.origin p with
    | .removed _ => none
    | .present l =>
      match fs.walk linkLimit (.present l) p.pieces with
      | .ok (.found here) => here.location?
      | _ => none

/-- A path as seen from the working directory. -/
def fromHere (fs : FileSystem) (p : Path) : Path :=
  match fs.here? with
  | some dir => dir.join p
  | none => p

/-- The plain path that leads where `p` leads; if `p` leads nowhere, what is left of it when its
dots are worked off. -/
def normalize (fs : FileSystem) (p : Path) : Path :=
  match fs.place? p with
  | some l => .ofNames l
  | none => (fs.fromHere p).clean

end ModuleReload.FileSystem
