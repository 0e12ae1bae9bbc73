import ModuleReload.FileSystem.Failure
import ModuleReload.Path.Parts

/-!
# File systems

A file system is a finite table of what stands at which *location*, the list of names from the root
to it, together with the directory one works in. The root itself is always a directory. Links are
entries of their own and hold the path they lead to.

The working directory is a directory and not a place: it goes along when it, or a directory around
it, is moved, and it can still be worked in after it has been removed. That is why it is kept as a
`Position`, which is a location or a directory that no longer has one. A removed directory holds
nothing and cannot be filled, but it still knows the directory around it.
-/

namespace ModuleReload

/-- The names from the root to a place in a file system. -/
abbrev Location := List Bytes

namespace FileSystem

/-! ## What stands at a location -/

/-- What the bytes of a file are read as. -/
inductive Content
  | text (s : String)
  /-- Bytes that are not UTF-8. -/
  | binary
  deriving DecidableEq, Repr

/-- The bytes read as UTF-8. -/
def Content.ofBytes (bytes : ByteArray) : Content :=
  match String.fromUTF8? bytes with
  | some s => .text s
  | none => .binary

/-- A moment, in nanoseconds since the epoch. -/
abbrev Instant := Int

/-- What stands at a location. -/
inductive Entry
  | file (content : Content) (modified : Instant)
  | directory (modified : Instant)
  | link (target : Path)
  deriving DecidableEq, Repr

/-! ## Where one stands -/

/-- Where a walk has come to, or where one works. -/
inductive Position
  | present (l : Location)
  /-- A directory that has been removed from the given one. -/
  | removed (outer : Position)
  deriving DecidableEq, Repr

namespace Position

/-- The root of the file system. -/
def root : Position :=
  .present []

/-- The directory around a position. The root is its own. -/
def outer : Position → Position
  | present l => .present l.dropLast
  | removed p => p

/-- The location of a position that has one. -/
def location? : Position → Option Location
  | present l => some l
  | removed _ => none

/-- The position after everything at a location has gone where `f` says. -/
def map (f : Location → Position) : Position → Position
  | present l => f l
  | removed p => .removed (p.map f)

/-- A directory `n` levels below another, all of which have been removed from it. -/
def removedBelow (p : Position) : Nat → Position
  | 0 => p
  | n + 1 => .removed (removedBelow p n)

end Position

end FileSystem

/-! ## The table -/

/-- Files, directories and links by their locations, and the working directory. -/
structure FileSystem where
  entries : List (Location × FileSystem.Entry)
  workingDirectory : FileSystem.Position
  deriving DecidableEq, Repr

namespace FileSystem

def empty : FileSystem :=
  ⟨[], .root⟩

/-- What stands at a location. The root is a directory without being in the table. -/
def entry? (fs : FileSystem) (l : Location) : Option Entry :=
  if l.isEmpty then some (.directory 0) else fs.entries.lookup l

theorem entry?_of_ne_nil {fs : FileSystem} {l : Location} (hl : l ≠ []) :
    fs.entry? l = fs.entries.lookup l :=
  if_neg (by simpa using hl)

/-- What stands at a position. What has been removed is still a directory. -/
def entryAt? (fs : FileSystem) : Position → Option Entry
  | .present l => fs.entry? l
  | .removed _ => some (.directory 0)

def isDirectoryAt (fs : FileSystem) (p : Position) : Bool :=
  match fs.entryAt? p with
  | some (.directory _) => true
  | _ => false

/-- The names of what a directory holds. -/
def namesIn (fs : FileSystem) (l : Location) : List Bytes :=
  fs.entries.filterMap fun e ↦ if e.1.dropLast = l then e.1.getLast? else none

/-- The path of the working directory, unless it has been removed. -/
def here? (fs : FileSystem) : Option Path :=
  fs.workingDirectory.location?.map .ofNames

end FileSystem

end ModuleReload
