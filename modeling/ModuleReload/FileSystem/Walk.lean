import ModuleReload.FileSystem.Basic

/-!
# Walking along a path

A walk (`walk`) goes piece by piece along a path and follows every link it meets. It ends where
something stands that is no link, or at a vacant location of an existing directory, which is where
something could be created. An empty piece or a dot asks only that a directory stands where the walk
has come to, so a slash after the name of a file is an error. A walk that meets more than
`linkLimit` links is given up.

Some paths are turned away before the first step (`refusal?`): one with a null character, an empty
one, and one of `pathLimit` bytes or more.
-/

namespace ModuleReload.FileSystem

/-! ## Limits -/

/-- The number of links that one walk may follow. -/
def linkLimit : Nat := 40

/-- The length, in bytes, beyond which a directory holds no name. -/
def nameLimit : Nat := 255

/-- The length, in bytes, from which on a path is not looked up. -/
def pathLimit : Nat := 4096

/-- Whether a path holds the null character. -/
def containsNull (p : Path) : Bool :=
  p.pieces.any fun s ↦ s.toList.contains '\x00'

/-- Why a path is not even looked up. -/
def refusal? (p : Path) : Option Failure :=
  if containsNull p then some .containsNull
  else if p.isEmpty then some .notFound
  else if pathLimit ≤ p.bytes.length then some .nameTooLong
  else none

/-! ## Walks -/

/-- Where a walk ends. -/
inductive Goal
  | found (p : Position)
  /-- Nothing stands there, but in an existing directory. -/
  | vacant (l : Location)
  deriving DecidableEq, Repr

/-- Goes from a position along pieces of a path up to the first link, from which `follow` goes
on. -/
def stretch (fs : FileSystem) (follow : Position → Path → List Bytes → Except Failure Goal)
    (here : Position) : List Bytes → Except Failure Goal
  | [] => .ok (.found here)
  | p :: ps =>
    if fs.isDirectoryAt here = false then .error .notDirectory
    else if p = "" ∨ p = "." then fs.stretch follow here ps
    else if p = ".." then fs.stretch follow here.outer ps
    else match here with
      -- A directory that has been removed holds nothing.
      | .removed _ => .error .notFound
      | .present l =>
        if nameLimit < p.length then .error .nameTooLong
        else match fs.entry? (l ++ [p]) with
          | none => if ps.isEmpty then .ok (.vacant (l ++ [p])) else .error .notFound
          | some (.link target) => follow here target ps
          | some _ => fs.stretch follow (.present (l ++ [p])) ps

/-- Goes from a position along pieces of a path, following at most `links` links. -/
def walk (fs : FileSystem) : Nat → Position → List Bytes → Except Failure Goal
  | 0, here, ps => fs.stretch (fun _ _ _ ↦ .error .tooManyLinks) here ps
  | links + 1, here, ps =>
    -- What a link says stands in for its name; an absolute one starts over.
    fs.stretch (fun here target ps ↦
      fs.walk links (if target.rooted then .root else here) (target.pieces ++ ps)) here ps

/-- Where a walk along a path begins. -/
def origin (fs : FileSystem) (p : Path) : Position :=
  if p.rooted then .root else fs.workingDirectory

def goal (fs : FileSystem) (p : Path) : Except Failure Goal :=
  match refusal? p with
  | some e => .error e
  | none => fs.walk linkLimit (fs.origin p) p.pieces

def locate (fs : FileSystem) (p : Path) : Except Failure Position :=
  match fs.goal p with
  | .ok (.found here) => .ok here
  | .ok (.vacant _) => .error .notFound
  | .error e => .error e

/-! ## The last name -/

/-- The place of the last name of a path in the directory that has it or could have it. -/
structure Slot where
  location : Location
  /-- Whether a slash follows the name, so that it can only be the name of a directory. -/
  slashed : Bool
  deriving DecidableEq, Repr

/-- The place of the last name of a path. Links are followed on the way to it, but the name itself
is not. A path that ends in dots has none. -/
def slot? (fs : FileSystem) (p : Path) : Option Slot :=
  match refusal? p, p.pieces.reverse.dropWhile (· = "") with
  | none, name :: front =>
    if name = "." ∨ name = ".." ∨ nameLimit < name.length then none
    else match fs.walk linkLimit (fs.origin p) front.reverse with
      | .ok (.found (.present l)) =>
        if fs.isDirectoryAt (.present l) then
          some ⟨l ++ [name], decide (front.length + 1 < p.pieces.length)⟩
        else none
      | _ => none
  | _, _ => none

end ModuleReload.FileSystem
