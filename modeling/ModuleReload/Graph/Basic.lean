import ModuleReload.Dependencies.Discovery
import ModuleReload.Tree.Basic

/-!
# Import graphs

The import graph of a source tree has the modules of the tree as its nodes. The imports of a module
are the modules of the tree that its source names, in the order of the source and each once; a
relative name that leads out of all packages is dropped, and a source that cannot be parsed imports
nothing. A module may import itself and the packages around it.
-/

namespace ModuleReload

/-- A module of the graph. -/
structure GraphNode where
  name : String
  isPackage : Bool
  imports : List String
  deriving DecidableEq, Repr

/-- The modules below a directory, by name, and the imports between them. -/
structure ImportGraph where
  root : Path
  nodes : List GraphNode
  deriving DecidableEq, Repr

namespace ImportGraph

open Source

def names (g : ImportGraph) : List String :=
  g.nodes.map GraphNode.name

def node? (g : ImportGraph) (name : String) : Option GraphNode :=
  g.nodes.find? (·.name == name)

def imports (g : ImportGraph) (name : String) : List String :=
  ((g.node? name).map GraphNode.imports).getD []

/-- What a module of a tree imports, with its relative names resolved, and the notice for a source
that cannot be parsed. -/
def importsOf (fs : FileSystem) (scope : Scope) (m : Module) : List String × List Notice :=
  match m.file with
  | none => ([], [])
  | some source =>
    match importsAt fs scope source with
    | .ok names => (names.filterMap fun n ↦ (Name.resolve m.packageName m.name n).toOption, [])
    | .error e => ([], [Dependencies.unparsed "graph" source e])

/-- Whether a module is the package that holds its source. -/
def isPackage (m : Module) : Bool :=
  m.file.bind Path.fileName? == some (Place.ownStem ++ "." ++ Place.sourceExtension)

/-- The graph of a tree, and the notices for the sources that cannot be parsed. -/
def ofTree (fs : FileSystem) (scope : Scope) (tree : SourceTree) : ImportGraph × List Notice :=
  let known := tree.names
  let nodes := tree.modules.map fun m ↦
    (⟨m.name, isPackage m, ((importsOf fs scope m).1.filter known.contains).eraseDups⟩ : GraphNode)
  (⟨tree.root, nodes⟩, tree.modules.flatMap fun m ↦ (importsOf fs scope m).2)

/-- The graph of the sources below a directory. -/
def scan (fs : FileSystem) (scope : Scope) (root : Path) :
    Except SourceTree.NotADirectory (ImportGraph × List Notice) := do
  let (tree, scanned) ← SourceTree.scan fs root
  let (graph, notices) := ofTree fs scope tree
  return (graph, scanned ++ notices)

end ImportGraph

end ModuleReload
