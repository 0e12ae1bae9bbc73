import ModuleReload.Graph.Basic

/-!
# Drawings of import graphs

A drawing is a list of marks in the DOT language. First comes every module in turn, with a mark if
it is a package and an edge for each of its imports; then an edge from each package to a module in
it where no import joins the two; then the modules that stand on one level, level by level. That a
module imports itself or a package around it is not drawn, since the nesting shows it.

An edge that does not lead to a deeper level puts no constraint on the layout, so that the levels
stay above one another.
-/

namespace ModuleReload.ImportGraph

/-! ## Marks -/

/-- One mark of a drawing. -/
inductive Mark
  /-- A package. -/
  | filled (name : String)
  /-- An import; `free` if it puts no constraint on the layout. -/
  | edge (importer imported : String) (free : Bool)
  /-- A package and a module in it that no import joins. -/
  | member (package name : String)
  /-- The modules of one level. -/
  | rank (names : List String)
  deriving DecidableEq, Repr

/-- Text in the quotes of the language. -/
def quoted (s : String) : String :=
  "\"" ++ s ++ "\""

/-- The line that a mark is written on. -/
def Mark.text : Mark → String
  | filled name => "\t" ++ quoted name ++ " [style=filled]\n"
  | edge importer imported free =>
    "\t" ++ quoted importer ++ " -> " ++ quoted imported ++
      (if free then " [constraint=false]\n" else "\n")
  | member package name => "\t" ++ quoted package ++ " -> " ++ quoted name ++ " [style=dotted]\n"
  | rank names => "\t\x7brank=same; " ++ " ".intercalate (names.map quoted) ++ "\x7d\n"

/-! ## The drawing of a graph -/

/-- The imports of a module that are drawn. -/
def drawnImports (n : GraphNode) : List String :=
  n.imports.filter fun i ↦ !Name.isAround i n.name

/-- The marks of a module itself. -/
def marksOf (n : GraphNode) : List Mark :=
  (if n.isPackage then [.filled n.name] else []) ++
    (drawnImports n).map fun i ↦ .edge n.name i (Name.level i ≤ Name.level n.name)

/-- The mark for the place of a module in its package, unless an import joins the two. -/
def memberMark? (g : ImportGraph) (n : GraphNode) : Option Mark :=
  match Name.parent? n.name with
  | none => none
  | some package =>
    match g.node? package with
    | none => none
    | some p =>
      if n.imports.contains package || p.imports.contains n.name then none
      else some (.member package n.name)

/-- The modules on a level. -/
def onLevel (g : ImportGraph) (level : Nat) : List String :=
  g.names.filter (Name.level · = level)

/-- One more than the deepest level. -/
def height (g : ImportGraph) : Nat :=
  (g.names.map fun n ↦ Name.level n + 1).foldl max 0

/-- The marks of a graph in the order in which they are written. -/
def marks (g : ImportGraph) : List Mark :=
  g.nodes.flatMap marksOf ++ g.nodes.filterMap g.memberMark? ++
    (((List.range g.height).map g.onLevel).filter (!·.isEmpty)).map .rank

def draw (g : ImportGraph) : String :=
  "digraph " ++ quoted g.root.text ++ " \x7b\n" ++ String.join (g.marks.map Mark.text) ++ "\x7d\n"

end ModuleReload.ImportGraph
