import ModuleReload.FileSystem.Normal
import ModuleReload.Module.Basic
import ModuleReload.Module.Place
import ModuleReload.Notice
import ModuleReload.Source.Declared
import ModuleReload.Text.Order

/-!
# Source trees

A source tree is a host whose modules are the sources below a directory, each named by its place.
Reinitializing one reads its file again and takes up what it declares; nothing is run. Hidden files
and directories and the directories of compiled files are not searched, and links are not followed.
Where two files claim one name, the first in the order of the walk has it. A tree is made for a
directory, but once it is made its root may turn into a file, and may then be a source itself.

Every module object that the tree ever held keeps a record of its own (`SourceTree.records`), at
the index that is its identity. So a handle that outlives its module is still a handle on the old
object, and never on a new one of the same name.
-/

namespace ModuleReload

/-- What changes about a module of a source tree. -/
structure SourceRecord where
  /-- The dependencies declared in the source as it was last read. -/
  declares : List String
  /-- How often the module was reinitialized. -/
  generation : Nat
  deriving DecidableEq, Repr

/-- The modules below a directory. -/
structure SourceTree where
  root : Path
  /-- The present modules, by name. -/
  modules : List Module
  /-- What changes about every module there ever was, by identity. -/
  records : List SourceRecord
  deriving DecidableEq, Repr

namespace SourceTree

open FileSystem

/-! ## Finding sources -/

/-- Whether a name is hidden. -/
def isHidden (name : Bytes) : Bool :=
  name.toList.head? == some '.'

/-- The names from the root of a tree to a file, if a walk from the root comes to it. The root is
walked to whatever its own name is. -/
def walkedTo? (root : Location) : Location × Entry → Option Location
  | (l, .file ..) =>
    let names := l.drop root.length
    if root.isPrefixOf l ∧ !names.any isHidden ∧
        !names.dropLast.contains Place.cacheDirectory then some names
    else none
  | _ => none

/-- Whether a file comes before another in a walk that takes the names of each directory in
order. -/
def walksBefore (a b : Location) : Bool :=
  Path.listLe (fun x y ↦ decide (x ≤ y)) a b

/-- Whether a walk from the root can read the directory of what the names lead to. Directories are
read by their paths, so the path of a directory must not be too long, while that of a file in it may
be. -/
def isRead (root : Path) (names : Location) : Bool :=
  decide ((⟨root.rooted, root.pieces ++ names.dropLast⟩ : Path).bytes.length < pathLimit)

/-- The location of what the last name of a path stands for, if it is no link. The root has no name
and stands for itself. -/
def placeOf? (fs : FileSystem) (root : Path) : Option Location :=
  if root.rooted ∧ root.pieces = [] then some [] else (fs.slot? root).map Slot.location

/-- The sources that a walk from the root comes to with what their places say, in the order of the
walk. Where the root has become a file, that file is all that a walk comes to. -/
def sourcesFrom (fs : FileSystem) (root : Path) : List (Place.Spec × Path) :=
  let found := match placeOf? fs root with
    | some l => (fs.entries.filterMap (walkedTo? l)).filter (isRead root)
    | none => []
  -- The entries of a file system are in no order, so the walk is put in its own.
  (found.mergeSort walksBefore).filterMap fun names ↦
    let p : Path := ⟨root.rooted, root.pieces ++ names⟩
    if p.extension? = some Place.sourceExtension then
      (Place.Spec.of? fs p).map fun spec ↦ (spec, p)
    else none

/-- The first source of each name. -/
def firstOfEachName : List (Place.Spec × Path) → List (Place.Spec × Path)
  | [] => []
  | s :: ss => s :: (firstOfEachName ss).filter (·.1.name ≠ s.1.name)

/-! ## Scanning and refreshing -/

/-- What a refresh changed, by name. -/
structure Changes where
  added : List String
  removed : List String
  deriving DecidableEq, Repr

def Changes.isEmpty (c : Changes) : Bool :=
  c.added.isEmpty && c.removed.isEmpty

/-- Tells the outcome of a refresh. -/
def scanned (tree : SourceTree) (c : Changes) : Notice :=
  ⟨"scan", .debug, s!"{tree.modules.length} modules under " ++ tree.root.text ++
    s!" (+{c.added.length} -{c.removed.length})"⟩

/-- The record of a module whose source is read for the first time. What cannot be read declares
nothing. -/
def firstRecord (fs : FileSystem) (p : Path) : SourceRecord :=
  match fs.read p with
  | .ok source => ⟨Source.declared source, 0⟩
  | .error _ => ⟨[], 0⟩

def byName (ms : List Module) : List Module :=
  ms.mergeSort fun a b ↦ decide (a.name ≤ b.name)

/-- New modules for sources, with identities from `next` on. -/
def newModules (next : Nat) : List (Place.Spec × Path) → List Module
  | [] => []
  | (spec, p) :: ss => ⟨next, spec.name, some p, spec.package⟩ :: newModules (next + 1) ss

/-- Takes up what has changed below the root. A module whose name and path are still there stays
the same object; all others are new. -/
def refresh (fs : FileSystem) (tree : SourceTree) : Changes × SourceTree × List Notice :=
  let sources := firstOfEachName (sourcesFrom fs tree.root)
  let isKept (m : Module) : Bool := sources.any fun s ↦ s.1.name = m.name ∧ some s.2 = m.file
  let kept := tree.modules.filter isKept
  let fresh := sources.filter fun s ↦ !kept.any (·.name = s.1.name)
  -- A name whose path has changed is both removed and added.
  let changes : Changes :=
    ⟨Text.sorted (fresh.map (·.1.name)),
      Text.sorted ((tree.modules.filter (!isKept ·)).map Module.name)⟩
  let tree : SourceTree :=
    { root := tree.root
      modules := byName (kept ++ newModules tree.records.length fresh)
      records := tree.records ++ fresh.map (firstRecord fs ·.2) }
  (changes, tree, [scanned tree changes])

/-- The root of a tree is no directory. -/
structure NotADirectory where
  root : Path
  deriving DecidableEq, Repr

def NotADirectory.message (e : NotADirectory) : String :=
  "\x60" ++ e.root.text ++ "\x60 is not a directory"

/-- The tree of the sources below a directory. -/
def scan (fs : FileSystem) (root : Path) : Except NotADirectory (SourceTree × List Notice) :=
  let root := fs.normalize root
  if fs.isDirectory root then
    let (_, tree, notices) := refresh fs ⟨root, [], []⟩
    .ok (tree, notices)
  else .error ⟨root⟩

/-! ## As a host -/

def names (tree : SourceTree) : List String :=
  tree.modules.map Module.name

def module? (tree : SourceTree) (name : String) : Option Module :=
  tree.modules.find? (·.name == name)

/-- The record of the object behind a handle. -/
def record (tree : SourceTree) (m : Module) : SourceRecord :=
  (tree.records[m.id]?).getD ⟨[], 0⟩

/-- Reads the source of a module again. -/
def reinitialize (fs : FileSystem) (tree : SourceTree) (m : Module) : Option String × SourceTree :=
  match m.file with
  | none => (none, tree)
  | some p =>
    match fs.read p with
    | .ok source =>
      (none, { tree with
        records := tree.records.modify m.id fun r ↦ ⟨Source.declared source, r.generation + 1⟩ })
    | .error cause => (some ("failed to read \x60" ++ p.text ++ "\x60: " ++ cause.message), tree)

/-- The tree as a host of its modules. Nothing is saved around a reload. -/
def host (fs : FileSystem) (tree : SourceTree) : Host SourceTree Unit where
  files := fs
  modules := tree.modules
  declares tree m := (tree.record m).declares
  save tree _ := (none, tree)
  reinitialize tree m := reinitialize fs tree m
  restore tree _ _ := tree

end SourceTree

end ModuleReload
