import ModuleReload.FileSystem.Basic

/-!
# Modules and their host

Modules belong to a *host*, which knows which are loaded and can load one anew. A `Module` is a
handle on one of the host's objects: what of it never changes, with an identity by which two
handles on the same object are told from handles on two objects of one name. What does change lives
in the state of the host, of some type `σ`, and is seen only through the operations of `Host`.

Around the reload of a module the host may save something of it and restore it afterwards; what is
saved is of some type `τ`.
-/

namespace ModuleReload

/-- A handle on a loaded module. -/
structure Module where
  /-- Tells the object behind the handle from all others. -/
  id : Nat
  /-- The dotted name. -/
  name : String
  /-- The file it was loaded from, possibly a compiled one. -/
  file : Option Path
  /-- The package that its relative names count from. -/
  package : Option String
  deriving DecidableEq, Repr

/-- The package that relative names count from, if any, as the resolver takes it. -/
def Module.packageName (m : Module) : String :=
  m.package.getD ""

/-- What a reload engine can ask of the runtime that owns the modules. -/
structure Host (σ τ : Type) where
  files : FileSystem
  /-- The modules loaded now, at most one of each name. -/
  modules : List Module
  /-- The names that a module says it depends on, as it gives them. -/
  declares : σ → Module → List String
  /-- Runs before a reload; the result is handed to `restore`. -/
  save : σ → Module → Option τ × σ
  /-- Loads a module anew. A result says why that failed. -/
  reinitialize : σ → Module → Option String × σ
  /-- Runs after a successful reload. -/
  restore : σ → Module → Option τ → σ

def Host.module? {σ τ : Type} (h : Host σ τ) (name : String) : Option Module :=
  h.modules.find? (·.name == name)

end ModuleReload
