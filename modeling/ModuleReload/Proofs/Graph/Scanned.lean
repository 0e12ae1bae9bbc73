import ModuleReload.Graph.Drawing
import ModuleReload.Proofs.Engine.Ownership
import ModuleReload.Proofs.Module.Naming
import ModuleReload.Proofs.Tree.Found

/-!
# Graphs of scanned trees

The graph of a scanned tree has every name once and every import of a module once, and each import
is the name of a module (`Sound.scan`). Nothing has to be known of the file system for that, nor of
the scope.

A module in a package is named one level deeper than the package (`Name.level_of_parent?`), so its
imports of the package and those of the package itself are told apart by the levels they lead to.
-/

namespace ModuleReload

open Text

/-! ## Levels -/

namespace Name

variable {name package outer inner : String}

theorem length_pieces {α : Type} [DecidableEq α] (sep : α) (as : List α) :
    (pieces sep as).length = as.count sep + 1 := by
  induction as with
  | nil => rfl
  | cons a as ih =>
    rw [pieces, List.count_cons]
    split
    case isTrue h => rw [List.length_cons, ih, if_pos (by simpa using h)]
    case isFalse h =>
      rw [if_neg (by simpa using h), Nat.add_zero, ← ih]
      cases hpieces : pieces sep as with
      | nil => exact absurd hpieces (pieces_ne_nil sep as)
      | cons p ps => rfl

theorem length_cut (name : String) : (cut '.' name).length = level name + 1 := by
  rw [cut, List.length_map, length_pieces, level]

theorem exists_cut_of_parent? (h : parent? name = some package) :
    ∃ last, cut '.' name = cut '.' package ++ [last] := by
  obtain hnil | ⟨ps, n, hparts⟩ := (cut '.' name).eq_nil_or_concat
  · exact absurd hnil (cut_ne_nil '.' name)
  · rw [List.concat_eq_append] at hparts
    have hdots : ∀ p ∈ ps ++ [n], '.' ∉ p.toList := hparts ▸ fun p ↦ not_mem_of_mem_cut
    have hname : name = paste '.' (ps ++ [n]) := by rw [← hparts, paste_cut]
    rw [hname, parent?_paste_concat hdots] at h
    split at h
    case isTrue => simp at h
    case isFalse hne =>
      obtain rfl := Option.some.inj h
      exact ⟨n, by rw [hparts, cut_paste hne fun p hp ↦ hdots p (List.mem_append_left _ hp)]⟩

theorem level_of_parent? (h : parent? name = some package) : level name = level package + 1 := by
  obtain ⟨last, hcut⟩ := exists_cut_of_parent? h
  have hlength := congrArg List.length hcut
  rw [List.length_append, length_cut, length_cut, List.length_singleton] at hlength
  omega

theorem isAround_of_parent? (h : parent? name = some package) : isAround package name = true := by
  obtain ⟨last, hcut⟩ := exists_cut_of_parent? h
  rw [isAround, hcut, List.isPrefixOf_iff_prefix]
  exact List.prefix_append _ _

theorem level_le_of_isAround (h : isAround outer inner = true) : level outer ≤ level inner := by
  rw [isAround, List.isPrefixOf_iff_prefix] at h
  have hle := h.length_le
  rw [length_cut, length_cut] at hle
  omega

end Name

namespace ImportGraph

open Source SourceTree

variable {fs : FileSystem} {scope : Scope} {root : Path} {g : ImportGraph} {notices : List Notice}

/-! ## Sound graphs -/

/-- What holds of the graph of every tree. -/
structure Sound (g : ImportGraph) : Prop where
  names : g.names.Nodup
  imports : ∀ n ∈ g.nodes, n.imports.Nodup
  known : ∀ n ∈ g.nodes, ∀ i ∈ n.imports, i ∈ g.names

theorem names_ofTree (fs : FileSystem) (scope : Scope) (tree : SourceTree) :
    (ofTree fs scope tree).1.names = tree.names := by
  simp [ofTree, names, SourceTree.names]

theorem Sound.ofTree {tree : SourceTree} (h : tree.names.Nodup) :
    (ofTree fs scope tree).1.Sound where
  names := by rwa [names_ofTree]
  imports n hn := by
    obtain ⟨m, -, rfl⟩ := List.mem_map.mp hn
    exact Dependencies.nodup_eraseDups _
  known n hn i hi := by
    obtain ⟨m, -, rfl⟩ := List.mem_map.mp hn
    rw [names_ofTree]
    simpa using (List.mem_filter.mp (List.mem_eraseDups.mp hi)).2

/-- A module gets a mark for its place if and only if its package is in the graph and neither
imports the other. -/
theorem memberMark?_eq_some_iff {n : GraphNode} {mark : Mark} : g.memberMark? n = some mark ↔
    ∃ package k, Name.parent? n.name = some package ∧ g.node? package = some k ∧
    package ∉ n.imports ∧
      n.name ∉ k.imports ∧ mark = .member package n.name := by
  rw [memberMark?]
  split
  case h_1 hparent => simp [hparent]
  case h_2 package hparent =>
    split
    case h_1 hnode => simp [hparent, hnode]
    case h_2 k hnode => simp [hparent, hnode, and_assoc, @eq_comm _ mark]

theorem exists_tree_of_scan (h : scan fs scope root = .ok (g, notices)) :
    ∃ tree scanned, SourceTree.scan fs root = .ok (tree, scanned) ∧
      g = (ImportGraph.ofTree fs scope tree).1 := by
  rw [ImportGraph.scan] at h
  cases htree : SourceTree.scan fs root with
  | error e => simp [htree, bind, Except.bind] at h
  | ok scanned =>
    rw [htree] at h
    exact ⟨scanned.1, scanned.2, rfl, (Prod.mk.inj (Except.ok.inj h)).1.symm⟩

theorem exists_scan_eq {modules : List Module} (hnormalize : fs.normalize root = root)
    (hdirectory : fs.isDirectory root = true)
    (hmodules : byName (newModules 0 (firstOfEachName (sourcesFrom fs root))) = modules) :
    ∃ tree notices, scan fs scope root = .ok ((ImportGraph.ofTree fs scope tree).1, notices) ∧
      tree.root = root ∧
      tree.modules = modules := by
  obtain ⟨tree, scanned, htree⟩ : ∃ tree scanned, SourceTree.scan fs root = .ok (tree, scanned) :=
    ⟨_, _, if_pos (by rw [hnormalize, hdirectory])⟩
  have hroot : tree.root = root := by
    rw [SourceTree.scan, hnormalize, if_pos hdirectory] at htree
    obtain ⟨rfl, -⟩ := Prod.mk.inj (Except.ok.inj htree)
    rfl
  refine ⟨tree, scanned ++ (ImportGraph.ofTree fs scope tree).2, ?_, hroot, ?_⟩
  · rw [scan, htree]
    rfl
  · rw [(scan_eq htree).2.1, hroot, hmodules]

theorem Sound.scan (h : scan fs scope root = .ok (g, notices)) : g.Sound := by
  obtain ⟨tree, scanned, htree, rfl⟩ := exists_tree_of_scan h
  refine .ofTree ?_
  rw [SourceTree.names, (scan_eq htree).2.1]
  have hperm := (List.mergeSort_perm (newModules 0 (firstOfEachName (sourcesFrom fs tree.root)))
    fun a b ↦ decide (a.name ≤ b.name)).map Module.name
  rw [map_name_newModules] at hperm
  exact hperm.nodup_iff.mpr (nodup_firstOfEachName _)

namespace Sound

variable {m n : GraphNode}

theorem eq_of_name (hg : g.Sound) (hm : m ∈ g.nodes) (hn : n ∈ g.nodes) (h : m.name = n.name) :
    m = n :=
  List.inj_on_of_nodup_map hg.names hm hn h

theorem node?_eq (hg : g.Sound) (hn : n ∈ g.nodes) : g.node? n.name = some n := by
  rw [node?, List.find?_eq_some_iff_append]
  obtain ⟨before, after, hnodes⟩ := List.append_of_mem hn
  refine ⟨by simp, before, after, hnodes, fun m hm ↦ ?_⟩
  have hnodup := hg.names
  rw [ImportGraph.names, hnodes, List.map_append, List.nodup_append] at hnodup
  have hne := hnodup.2.2 m.name (List.mem_map_of_mem hm) n.name (by simp)
  simpa using hne

end Sound

end ImportGraph

/-! ## A package and its modules -/

namespace FileSystem

open ModuleReload.Path SourceTree

/-- A package and three modules in it: one that it imports, one that imports it, and one with
neither. -/
def family : FileSystem where
  entries := [(["p"], .directory 0), (["p", "__init__.py"], .file (.text "import p.b\n") 0),
    (["p", "a.py"], .file (.text "import p\n") 0), (["p", "b.py"], .file (.text "") 0),
    (["p", "c.py"], .file (.text "") 0)]
  workingDirectory := .root

theorem sourcesFrom_family : sourcesFrom family (.ofNames []) =
    [(⟨"p", some "p", true⟩, ⟨true, ["p", "__init__.py"]⟩),
      (⟨"p.a", some "p", false⟩, ⟨true, ["p", "a.py"]⟩),
      (⟨"p.b", some "p", false⟩, ⟨true, ["p", "b.py"]⟩),
      (⟨"p.c", some "p", false⟩, ⟨true, ["p", "c.py"]⟩)] := by
  have hplace : placeOf? family (.ofNames []) = some [] := by decide
  have hfound : (family.entries.filterMap (walkedTo? [])).filter (isRead (.ofNames [])) =
      [["p", "__init__.py"], ["p", "a.py"], ["p", "b.py"], ["p", "c.py"]] := by decide
  rw [sourcesFrom_of_pairwise hplace hfound (by decide)]
  decide +kernel

end FileSystem

namespace ImportGraph

open FileSystem SourceTree

def ofFamily : ImportGraph :=
  ⟨.ofNames [],
    [⟨"p", true, ["p.b"]⟩, ⟨"p.a", false, ["p"]⟩, ⟨"p.b", false, []⟩, ⟨"p.c", false, []⟩]⟩

theorem scan_family :
    ∃ notices, scan .family .topLevel (.ofNames []) = .ok (ofFamily, notices) := by
  have hmodules : byName (newModules 0 (firstOfEachName (sourcesFrom family (.ofNames [])))) =
      [⟨0, "p", some ⟨true, ["p", "__init__.py"]⟩, some "p"⟩,
        ⟨1, "p.a", some ⟨true, ["p", "a.py"]⟩, some "p"⟩,
        ⟨2, "p.b", some ⟨true, ["p", "b.py"]⟩, some "p"⟩,
          ⟨3, "p.c", some ⟨true, ["p", "c.py"]⟩, some "p"⟩] := by
    rw [sourcesFrom_family]
    exact List.mergeSort_of_pairwise (by decide)
  obtain ⟨tree, notices, hscan, hroot, htree⟩ := exists_scan_eq (by decide) (by decide) hmodules
  have hgraph : (ofTree family .topLevel tree).1 = ofFamily := by
    rw [ofTree, SourceTree.names, hroot, htree]
    decide +kernel
  exact ⟨notices, hgraph ▸ hscan⟩

end ImportGraph

end ModuleReload
