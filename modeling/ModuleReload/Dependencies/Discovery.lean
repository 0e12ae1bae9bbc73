import ModuleReload.Module.Basic
import ModuleReload.Module.Place
import ModuleReload.Name.Relative
import ModuleReload.OwnedRoots
import ModuleReload.Source.Discovery
import ModuleReload.Table
import ModuleReload.Text.Order

/-!
# Dependencies of a module

The dependencies of a module are loaded modules, found by two ways. What its source imports at top
level counts if it is loaded and has a source under an owned root, or under the directory that
holds the module's own package; so imports within one package count even where that package is not
owned. What the module declares counts wherever it lies, both as given and resolved against the
module. No dependency is listed twice, and none is the module itself.

The list contains more than the true dependencies, since an imported member may be no module, and
the graph of all such lists may have cycles.
-/

namespace ModuleReload

/-- The known dependencies of modules, by the name of the module. -/
abbrev Dependencies := Table String (List Module)

namespace Dependencies

open Source

variable {σ τ : Type}

/-! ## Notices -/

/-- Says that a source cannot be searched for imports. -/
def unparsed (topic : String) (p : Path) (e : SyntaxError) : Notice :=
  ⟨topic, .debug, "cannot parse " ++ p.text ++ ": " ++ e.message⟩

/-- Tells the imports of a source as they are written. -/
def imported (name : String) (names : List String) : Notice :=
  ⟨"deps", .trace, "top-level imports of " ++ name ++ ": [" ++ Text.listed names ++ "]"⟩

/-- Says that a relative name leads out of all packages. -/
def unresolved (e : Name.BeyondTopLevel) : Notice :=
  ⟨"deps", .debug, e.message⟩

/-- Tells the dependencies found. -/
def found (name : String) (children : List Module) : Notice :=
  ⟨"deps", .trace,
    "dependencies of " ++ name ++ ": [" ++ Text.listed (children.map Module.name) ++ "]"⟩

/-! ## The two ways -/

/-- The source of a module that a user may edit. -/
def sourceOf? (fs : FileSystem) (m : Module) : Option Path :=
  m.file.bind (Place.editableSource? fs)

/-- What a source imports at top level, resolved against its module. -/
def topLevelNames (fs : FileSystem) (m : Module) (source : Path) : List String × List Notice :=
  match importsAt fs .topLevel source with
  | .error e => ([], [unparsed "deps" source e])
  | .ok names =>
    let resolved := names.map (Name.resolve m.packageName m.name)
    -- One relative name that leads too far out does not spoil the others.
    let good := resolved.filterMap Except.toOption
    let bad := resolved.filterMap fun r ↦ match r with
      | .error e => some (unresolved e)
      | .ok _ => none
    (good, imported m.name names :: bad)

/-- Whether the module of a name is loaded and its source lies under a root or an extra one. -/
def isOwned (h : Host σ τ) (roots : OwnedRoots) (extra : Path) (name : String) : Bool :=
  match (h.module? name).bind (sourceOf? h.files) with
  | some source => roots.containsWith h.files source (some extra)
  | none => false

/-- The names that a module depends on by its imports. -/
def importedNames (h : Host σ τ) (roots : OwnedRoots) (m : Module) : List String × List Notice :=
  match sourceOf? h.files m with
  | none => ([], [])
  | some source =>
    let (names, notices) := topLevelNames h.files m source
    (names.filter (isOwned h roots (Place.packageRoot h.files source)), notices)

/-- The names that a declared name may mean: itself, then what it resolves to. -/
def declaredAs (m : Module) (name : String) : List String :=
  if name.isEmpty then []
  else match Name.resolve m.packageName m.name name with
    | .ok resolved => if resolved = name then [name] else [name, resolved]
    | .error _ => [name]

/-! ## Both -/

/-- The dependencies of a module in the present state of the host. -/
def discover (h : Host σ τ) (roots : OwnedRoots) (state : σ) (m : Module) :
    List Module × List Notice :=
  let (imports, notices) := importedNames h roots m
  let candidates := imports ++ (h.declares state m).flatMap (declaredAs m)
  -- A module that names itself does not depend on itself.
  let names := (candidates.filter (· ≠ m.name)).eraseDups
  let children := names.filterMap h.module?
  (children, notices ++ [found m.name children])

end Dependencies

end ModuleReload
