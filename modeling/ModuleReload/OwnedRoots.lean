import ModuleReload.FileSystem.Normal
import ModuleReload.Notice

/-!
# Owned roots

Only modules whose source lies under an owned root are reloaded. What a language brings along and
what is installed beside it is not owned, so a change there never spreads into the modules that a
user edits.

The roots are normalized when they are added, without repetition and in the order of their first
appearance. A path is owned if, normalized too, it is one of them or lies below one, compared
component by component: `/a/bc` does not lie below `/a/b`.
-/

namespace ModuleReload

/-- The directories whose modules may be reloaded. -/
structure OwnedRoots where
  paths : List Path
  deriving DecidableEq, Repr

namespace OwnedRoots

/-! ## Building -/

def empty : OwnedRoots :=
  ⟨[]⟩

/-- The roots with one more, unless it is among them. -/
def push (fs : FileSystem) (roots : OwnedRoots) (p : Path) : OwnedRoots :=
  let root := fs.normalize p
  if roots.paths.contains root then roots else ⟨roots.paths ++ [root]⟩

def ofList (fs : FileSystem) (ps : List Path) : OwnedRoots :=
  ps.foldl (push fs) empty

/-- The directory in which packages are installed. -/
def installDirectory : String := "site-packages"

/-- Whether an entry of the search path is left out: it is one of the excluded directories, or it
lies below one and is not part of a directory of installed packages. -/
def isExcluded (fs : FileSystem) (excluded : List Path) (entry : Path) : Bool :=
  let place := fs.normalize entry
  let installed := place.components.contains (.name installDirectory)
  excluded.any fun p ↦
    let outer := fs.normalize p
    place == outer || (place.isUnder outer && !installed)

/-- Says that an entry of the search path is left out. -/
def skipped (entry : Path) : Notice :=
  ⟨"roots", .trace, "skipping search path entry " ++ entry.text⟩

/-- The explicit roots, followed by the entries of the search path that are not excluded, with a
notice for each entry that is. -/
def ofSearchPath (fs : FileSystem) (explicit searchPath excluded : List Path) :
    OwnedRoots × List Notice :=
  let left := searchPath.filter (isExcluded fs excluded)
  let used := searchPath.filter (!isExcluded fs excluded ·)
  (used.foldl (push fs) (ofList fs explicit), left.map skipped)

/-! ## Asking -/

def contains (fs : FileSystem) (roots : OwnedRoots) (p : Path) : Bool :=
  roots.paths.any (fs.normalize p).isUnder

/-- Whether a path lies under one of the roots or under one more. -/
def containsWith (fs : FileSystem) (roots : OwnedRoots) (p : Path) (extra : Option Path) : Bool :=
  roots.contains fs p || extra.any fun root ↦ (fs.normalize p).isUnder (fs.normalize root)

end OwnedRoots

end ModuleReload
