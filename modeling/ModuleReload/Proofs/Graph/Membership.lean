import ModuleReload.Proofs.Graph.Scanned

/-!
# Modules and their packages

A drawing joins a module and the package it lies in by one edge at most (`filter_joins_marks`). If
the package imports the module, it is that import; if neither imports the other, it is the edge that
stands for the place of the module. A module that imports its package is joined with it by nothing
else than the import, and this is not drawn, since the nesting shows it; so nothing is drawn between
the two unless the package imports the module too.
-/

namespace ModuleReload.ImportGraph

open Source

variable {fs : FileSystem} {scope : Scope} {root : Path} {g : ImportGraph} {notices : List Notice}
  {m n p : GraphNode}

/-- Whether a mark is an edge between two modules, in whichever direction. -/
def Mark.joins (a b : String) : Mark → Bool
  | edge importer imported _ => (importer == a && imported == b) || (importer == b && imported == a)
  | member package name => (package == a && name == b) || (package == b && name == a)
  | _ => false

/-! ## Imports -/

theorem flatMap_eq_of_mem {α : Type} (hg : g.Sound) (hn : n ∈ g.nodes) {f : GraphNode → List α}
    (hf : ∀ k ∈ g.nodes, k.name ≠ n.name → f k = []) : g.nodes.flatMap f = f n := by
  obtain ⟨before, after, hnodes⟩ := List.append_of_mem hn
  have hnodup := hg.names
  rw [names, hnodes, List.map_append, List.map_cons, List.nodup_append, List.nodup_cons] at hnodup
  have hbefore : before.flatMap f = [] := by
    refine List.flatMap_eq_nil_iff.mpr fun k hk ↦ hf k (by simp [hnodes, hk]) ?_
    exact hnodup.2.2 k.name (List.mem_map_of_mem hk) n.name List.mem_cons_self
  have hafter : after.flatMap f = [] := by
    refine List.flatMap_eq_nil_iff.mpr fun k hk ↦ hf k (by simp [hnodes, hk]) fun hname ↦ ?_
    exact hnodup.2.1.1 (hname ▸ List.mem_map_of_mem hk)
  rw [hnodes, List.flatMap_append, List.flatMap_cons, hbefore, hafter, List.nil_append,
    List.append_nil]

theorem not_mem_drawnImports (hparent : Name.parent? n.name = some p.name) :
    p.name ∉ drawnImports n := by
  rw [drawnImports, List.mem_filter, Name.isAround_of_parent? hparent]
  simp

theorem mem_drawnImports_iff (hparent : Name.parent? m.name = some p.name) :
    m.name ∈ drawnImports p ↔ m.name ∈ p.imports := by
  have hlevel := Name.level_of_parent? hparent
  have haround : Name.isAround m.name p.name = false := by
    rw [Bool.eq_false_iff]
    intro haround
    have hle := Name.level_le_of_isAround haround
    omega
  rw [drawnImports, List.mem_filter, haround]
  simp

/-- The imports between a module and its package that are drawn: that of the package, if it is
one. -/
theorem filter_joins_marksOf (hg : g.Sound) (hp : p ∈ g.nodes)
    (hparent : Name.parent? m.name = some p.name) :
    (g.nodes.flatMap marksOf).filter (Mark.joins p.name m.name) =
      if m.name ∈ p.imports then [.edge p.name m.name false] else [] := by
  have hlevel := Name.level_of_parent? hparent
  have hne : p.name ≠ m.name := fun hname ↦ by
    rw [hname] at hlevel
    omega
  have hmarks (k : GraphNode) : (marksOf k).filter (Mark.joins p.name m.name) =
      ((drawnImports k).filter fun i ↦ (Mark.edge k.name i (Name.level i ≤ Name.level k.name)).joins
        p.name m.name).map
        fun i ↦ .edge k.name i (Name.level i ≤ Name.level k.name) := by
    rw [marksOf, List.filter_append, List.filter_map]
    have hfilled :
        (if k.isPackage then [Mark.filled k.name] else []).filter (Mark.joins p.name m.name) =
          [] := by
      split <;> rfl
    rw [hfilled, List.nil_append]
    rfl
  have hother : ∀ k ∈ g.nodes, k.name ≠ p.name →
      (marksOf k).filter (Mark.joins p.name m.name) = [] := by
    intro k _ hk
    rw [hmarks, List.map_eq_nil_iff, List.filter_eq_nil_iff]
    intro i hi hjoins
    simp only [Mark.joins, Bool.or_eq_true, Bool.and_eq_true, beq_iff_eq] at hjoins
    rcases hjoins with ⟨hname, -⟩ | ⟨hname, rfl⟩
    · exact hk hname
    · exact not_mem_drawnImports (hname ▸ hparent) hi
  have hpackage : (drawnImports p).filter
        (fun i ↦ (Mark.edge p.name i (Name.level i ≤ Name.level p.name)).joins p.name m.name) =
      if m.name ∈ p.imports then [m.name] else [] := by
    have hnodup : (drawnImports p).Nodup := (hg.imports p hp).filter _
    have hjoins :
        (fun i ↦ (Mark.edge p.name i (Name.level i ≤ Name.level p.name)).joins p.name m.name) =
        fun i ↦ i == m.name := by
      funext i
      simp [Mark.joins, beq_eq_false_iff_ne.mpr hne]
    rw [hjoins, List.filter_beq, hnodup.count]
    simp only [mem_drawnImports_iff hparent]
    split <;> rfl
  have hfree : decide (Name.level m.name ≤ Name.level p.name) = false := by
    rw [decide_eq_false_iff_not]
    omega
  rw [List.filter_flatMap, flatMap_eq_of_mem hg hp hother, hmarks, hpackage]
  split
  · rw [List.map_singleton, hfree]
  · rfl

/-! ## Places -/

/-- The edge that stands for the place of a module: only the module's own joins it with its
package. -/
theorem filter_joins_memberMark (hg : g.Sound) (hm : m ∈ g.nodes) (hp : p ∈ g.nodes)
    (hparent : Name.parent? m.name = some p.name) :
    (g.nodes.filterMap g.memberMark?).filter (Mark.joins p.name m.name) =
      if p.name ∈ m.imports ∨ m.name ∈ p.imports then [] else [.member p.name m.name] := by
  have hlevel := Name.level_of_parent? hparent
  have hother : ∀ k ∈ g.nodes, k.name ≠ m.name →
      (g.memberMark? k).toList.filter (Mark.joins p.name m.name) = [] := by
    intro k _ hk
    cases hmark : g.memberMark? k with
    | none => rfl
    | some mark =>
      obtain ⟨package, -, hpackage, -, -, -, rfl⟩ := memberMark?_eq_some_iff.mp hmark
      -- The package of a package of this level is one of a lower level.
      have hnot : (Mark.member package k.name).joins p.name m.name = false := by
        rw [Bool.eq_false_iff]
        intro hjoins
        simp only [Mark.joins, Bool.or_eq_true, Bool.and_eq_true, beq_iff_eq] at hjoins
        rcases hjoins with ⟨-, hname⟩ | ⟨hname, hname'⟩
        · exact hk hname
        · have hlevel' := Name.level_of_parent? hpackage
          rw [hname, hname'] at hlevel'
          omega
      simp [hnot]
  have hown : (g.memberMark? m).toList.filter (Mark.joins p.name m.name) =
      if p.name ∈ m.imports ∨ m.name ∈ p.imports then [] else [.member p.name m.name] := by
    rw [memberMark?, hparent]
    dsimp only
    rw [hg.node?_eq hp]
    simp only [List.contains_iff_mem, Bool.or_eq_true]
    split
    · rfl
    · simp [Mark.joins]
  rw [List.filterMap_eq_flatMap_toList, List.filter_flatMap, flatMap_eq_of_mem hg hm hother, hown]

/-! ## Drawings -/

theorem filter_joins_marks (hg : g.Sound) (hm : m ∈ g.nodes) (hp : p ∈ g.nodes)
    (hparent : Name.parent? m.name = some p.name) :
    g.marks.filter (Mark.joins p.name m.name) =
      if m.name ∈ p.imports then [.edge p.name m.name false]
      else if p.name ∈ m.imports then [] else [.member p.name m.name] := by
  have hranks : ((((List.range g.height).map g.onLevel).filter (!·.isEmpty)).map Mark.rank).filter
      (Mark.joins p.name m.name) = [] := by
    rw [List.filter_map]
    simp [Mark.joins, Function.comp_def]
  rw [marks, List.filter_append, List.filter_append, filter_joins_marksOf hg hp hparent,
    filter_joins_memberMark hg hm hp hparent, hranks, List.append_nil]
  by_cases himport : m.name ∈ p.imports
  · simp [himport]
  · simp [himport]

theorem exists_draw_eq_of_mem {mark : Mark} (h : mark ∈ g.marks) :
    ∃ before after, g.draw = before ++ mark.text ++ after := by
  obtain ⟨earlier, later, hmarks⟩ := List.append_of_mem h
  refine ⟨"digraph " ++ quoted g.root.text ++ " \x7b\n" ++ String.join (earlier.map Mark.text),
    String.join (later.map Mark.text) ++ "\x7d\n", ?_⟩
  rw [draw, hmarks, List.map_append, List.map_cons, String.join_append, String.join_cons]
  simp only [String.append_assoc]

/-- **Modules and their packages in a drawing.** The edges between a module and the package it lies
in are that of the import of the module, if the package imports it; else that of its place, if the
module does not import the package either; else there is none. What is drawn stands in the text. -/
theorem joins_of_parent? (h : scan fs scope root = .ok (g, notices)) (hm : m ∈ g.nodes)
    (hp : p ∈ g.nodes) (hparent : Name.parent? m.name = some p.name) :
    g.marks.filter (Mark.joins p.name m.name) =
        (if m.name ∈ p.imports then [.edge p.name m.name false]
        else if p.name ∈ m.imports then [] else [.member p.name m.name]) ∧
      ∀ mark ∈ g.marks, ∃ before after, g.draw = before ++ mark.text ++ after :=
  ⟨filter_joins_marks (.scan h) hm hp hparent, fun _ ↦ exists_draw_eq_of_mem⟩

/-- The package imports one module, is imported by another, and has nothing to do with the third. -/
theorem joins_of_parent?_family :
    ∃ g notices, scan .family .topLevel (.ofNames []) = .ok (g, notices) ∧
    g.marks.filter (Mark.joins "p" "p.b") = [.edge "p" "p.b" false] ∧
      g.marks.filter (Mark.joins "p" "p.a") = [] ∧
      g.marks.filter (Mark.joins "p" "p.c") = [.member "p" "p.c"] := by
  obtain ⟨notices, h⟩ := scan_family
  let p : GraphNode := ⟨"p", true, ["p.b"]⟩
  have hp : p ∈ ofFamily.nodes := by decide
  refine ⟨ofFamily, notices, h, ?_, ?_, ?_⟩
  · exact (@joins_of_parent? _ _ _ _ _ ⟨"p.b", false, []⟩ p h (by decide) hp (by decide)).1
  · exact (@joins_of_parent? _ _ _ _ _ ⟨"p.a", false, ["p"]⟩ p h (by decide) hp (by decide)).1
  · exact (@joins_of_parent? _ _ _ _ _ ⟨"p.c", false, []⟩ p h (by decide) hp (by decide)).1

/-- Of the module that imports its package, no edge to the package or from it is drawn. -/
theorem not_joined_family : ∃ g notices, scan .family .topLevel (.ofNames []) = .ok (g, notices) ∧
    "p.a" ∈ g.names ∧ Name.parent? "p.a" = some "p" ∧ "p" ∈ g.names ∧
      (∀ mark ∈ g.marks, mark.joins "p" "p.a" = false) ∧
        ¬("\"p\" -> \"p.a\"".toList <:+: g.draw.toList) ∧
        ¬("\"p.a\" -> \"p\"".toList <:+: g.draw.toList) := by
  obtain ⟨notices, h⟩ := scan_family
  exact ⟨ofFamily, notices,
    h, by decide, by decide, by decide, by decide, by decide +kernel, by decide +kernel⟩

end ModuleReload.ImportGraph
