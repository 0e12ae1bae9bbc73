import ModuleReload.Graph.Basic
import ModuleReload.Proofs.Path.Parts
import ModuleReload.Proofs.Tree.Found

/-!
# Two sources far down

A directory may lie so far down that a short name in it can be looked up by its path and a longer
one cannot: the path of the directory is just short enough for both to be found when the directory
is read, and that of the file with the longer name is too long. Here is such a directory at every
depth, with two sources of which one imports the other.
-/

namespace ModuleReload

open FileSystem

/-! ## The file system -/

namespace Nested

open ModuleReload.Path SourceTree

/-- The way to a directory that is so many levels down. -/
def way (k : Nat) : Location :=
  List.replicate k "directory"

/-- A file system with two sources in such a directory, of which one imports the other. -/
def files (k : Nat) : FileSystem where
  entries := (List.range k).map (fun i ↦ (way (i + 1), .directory 0)) ++
    [(way k ++ ["m.py"], .file (.text "import nn\n") 0), (way k ++ ["nn.py"], .file (.text "") 0)]
  workingDirectory := .root

def root (k : Nat) : Path :=
  .ofNames (way k)

def source (k : Nat) (n : String) : Path :=
  .ofNames (way k ++ [n])

/-- The module that imports the other. -/
def importer (k : Nat) : Module :=
  ⟨0, "m", some (source k "m.py"), none⟩

def imported (k : Nat) : Module :=
  ⟨1, "nn", some (source k "nn.py"), none⟩

variable {k : Nat}

end Nested

end ModuleReload
