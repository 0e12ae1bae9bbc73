import ModuleReload.FileSystem.Walk
import ModuleReload.Path.Ancestors

/-!
# Questions about a path

What a path leads to, and what can be asked about it: whether it is there, whether it is a file or a
directory, the text of a file, and when it was last modified. What a path cannot be followed to is
not there.

A file that applies to a whole directory tree is looked for in the directory one starts from, then
in the directory around it, and so on to the root; the nearest one counts. A rooted name is not
searched for: it leads to what it names or to nothing.
-/

namespace ModuleReload.FileSystem

/-- What a path leads to. -/
def lookup (fs : FileSystem) (p : Path) : Except Failure Entry :=
  match fs.locate p with
  | .ok here => match fs.entryAt? here with
    | some e => .ok e
    | none => .error .notFound
  | .error e => .error e

def contains (fs : FileSystem) (p : Path) : Bool :=
  (fs.lookup p).isOk

def isFile (fs : FileSystem) (p : Path) : Bool :=
  match fs.lookup p with
  | .ok (.file ..) => true
  | _ => false

def isDirectory (fs : FileSystem) (p : Path) : Bool :=
  match fs.lookup p with
  | .ok (.directory _) => true
  | _ => false

/-- The text of the file that the path leads to. -/
def read (fs : FileSystem) (p : Path) : Except Failure String :=
  match fs.lookup p with
  | .ok (.file (.text s) _) => .ok s
  | .ok (.file .binary _) => .error .undecodable
  | .ok (.directory _) => .error .isDirectory
  | .ok (.link _) => .error .notFound
  | .error e => .error e

def modified? (fs : FileSystem) (p : Path) : Option Instant :=
  match fs.lookup p with
  | .ok (.file _ t) => some t
  | .ok (.directory t) => some t
  | _ => none

/-! ## Searching outwards -/

/-- The nearest file of the given name in a directory or around it. -/
def findOutwards (fs : FileSystem) (start name : Path) : Option Path :=
  if name.rooted then
    if fs.contains name then some name else none
  else (start.ancestors.map (·.join name)).find? fs.isFile

/-- The nearest file of the given name in the working directory or around it. Nothing is around a
working directory that has been removed. -/
def findFromHere (fs : FileSystem) (name : Path) : Option Path :=
  fs.here?.bind fun dir ↦ fs.findOutwards dir name

end ModuleReload.FileSystem
