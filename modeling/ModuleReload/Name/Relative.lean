import ModuleReload.Text.Pieces

/-!
# Relative names

A name with leading dots is meant relative to the module that imports it: every dot drops one part
from the end of that module's name, and the rest of the name is appended. A package is named like
the directory its own source lies in, so one part more is assumed for it; then a single dot means
the package itself there too.

Dropping more parts than there are, or all of them, leaves the outermost package, which is an
error; so does an anchor with an empty part.
-/

namespace ModuleReload.Name

open Text

/-- A relative name with more dots than its module has packages. -/
structure BeyondTopLevel where
  name : String
  module : String
  deriving DecidableEq, Repr

def BeyondTopLevel.message (e : BeyondTopLevel) : String :=
  "relative import \x60" ++ e.name ++ "\x60 in \x60" ++ e.module ++
    "\x60 goes beyond the top-level package"

/-- The part that a package's own source has beyond the package's name. -/
def ownPart : String := "__init__"

def leadingDots (name : String) : Nat :=
  (name.toList.takeWhile (· = '.')).length

/-- What follows the dots in front of a name. -/
def afterDots (name : String) : String :=
  String.ofList (name.toList.dropWhile (· = '.'))

/-- The parts of a module's name that a relative name in it counts back from. -/
def partsFor (package module : String) : List String :=
  if package = module then cut '.' module ++ [ownPart] else cut '.' module

/-- The absolute name that `name` means in `module`, which lies in `package`. -/
def resolve (package module name : String) : Except BeyondTopLevel String :=
  if leadingDots name = 0 then .ok name
  else
    let parts := partsFor package module
    let anchor := parts.take (parts.length - leadingDots name)
    if parts.length < leadingDots name ∨ anchor.isEmpty ∨ anchor.contains "" then
      .error ⟨name, module⟩
    else if (afterDots name).isEmpty then .ok (paste '.' anchor)
    else .ok (paste '.' anchor ++ "." ++ afterDots name)

theorem resolve_absolute {name : String} (h : leadingDots name = 0) (package module : String) :
    resolve package module name = .ok name := by
  rw [resolve, if_pos h]

end ModuleReload.Name
