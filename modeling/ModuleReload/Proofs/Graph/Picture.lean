import Mathlib.Data.List.Nodup
import ModuleReload.Proofs.Graph.Escapes
import ModuleReload.Proofs.Graph.Scanned

/-!
# What drawings show

The marks of a scanned tree are a picture of its graph: the packages, the imports that are drawn,
the places of modules and the levels can all be told from them, and nothing is there twice
(`Sound.pictures`). Whether the marks can be told from the drawing is a matter of the names. They
are written as they are, and the drawing is read as a picture of the graph if and only if each of
them is legible (`exists_pictures_iff`).

All pictures of a graph have the same names equally often (`Pictures.perm_namesIn`), so a drawing
that is read as any picture is read without using up what is in the names.
-/

namespace ModuleReload

namespace ImportGraph

open Dot

variable {g : ImportGraph} {marks marks' : List Mark}

/-! ## Pictures -/

namespace Mark

def package? : Mark → Option String
  | filled name => some name
  | _ => none

def import? : Mark → Option (String × String × Bool)
  | edge importer imported free => some (importer, imported, free)
  | _ => none

def place? : Mark → Option (String × String)
  | member package name => some (package, name)
  | _ => none

def group? : Mark → Option (List String)
  | rank names => some names
  | _ => none

end Mark

/-- Marks from which a graph can be told: its packages, the imports that are drawn, with those that
put no constraint on the layout, the places of modules in packages, and the modules level by
level. -/
structure Pictures (g : ImportGraph) (marks : List Mark) : Prop where
  nodup_packages : (marks.filterMap Mark.package?).Nodup
  mem_packages (p : String) : p ∈ marks.filterMap Mark.package? ↔
  ∃ n ∈ g.nodes, n.name = p ∧ n.isPackage = true
  nodup_imports : ((marks.filterMap Mark.import?).map fun e ↦ (e.1, e.2.1)).Nodup
  mem_imports (a b : String) (free : Bool) : (a, b, free) ∈ marks.filterMap Mark.import? ↔
    (∃ n ∈ g.nodes, n.name = a ∧ b ∈ n.imports ∧ Name.isAround b a = false) ∧
      (free = true ↔ Name.level b ≤ Name.level a)
  nodup_places : (marks.filterMap Mark.place?).Nodup
  mem_places (p m : String) : (p, m) ∈ marks.filterMap Mark.place? ↔
    Name.parent? m = some p ∧
      ∃ n ∈ g.nodes, ∃ k ∈ g.nodes, n.name = m ∧ k.name = p ∧ p ∉ n.imports ∧ m ∉ k.imports
  nonempty : [] ∉ marks.filterMap Mark.group?
  perm : (marks.filterMap Mark.group?).flatten.Perm g.names
  level_eq : ∀ l ∈ marks.filterMap Mark.group?, ∀ a ∈ l, ∀ b ∈ l, Name.level a = Name.level b
  increasing : (marks.filterMap Mark.group?).Pairwise fun l l' ↦ ∀ a ∈ l, ∀ b ∈ l',
    Name.level a < Name.level b

/-- The names in marks of each kind. -/
def namesByKind (marks : List Mark) : List String :=
  marks.filterMap Mark.package? ++ (marks.filterMap Mark.import?).flatMap (fun e ↦ [e.1, e.2.1]) ++
    (marks.filterMap Mark.place?).flatMap (fun e ↦ [e.1, e.2]) ++
    (marks.filterMap Mark.group?).flatten

theorem perm_namesByKind (marks : List Mark) :
    (marks.flatMap namesIn).Perm (namesByKind marks) := by
  rw [List.perm_iff_count]
  intro n
  induction marks with
  | nil => rfl
  | cons mark marks ih =>
    rw [List.flatMap_cons, List.count_append, ih]
    simp only [namesByKind, List.filterMap_cons, List.count_append]
    cases mark with
    | filled m =>
      have hnames : namesIn (.filled m) = [m] := rfl
      simp only [hnames, Mark.package?, Mark.import?, Mark.place?, Mark.group?, List.count_cons,
        List.count_nil]
      omega
    | edge importer imported free =>
      have hnames : namesIn (.edge importer imported free) = [importer, imported] := rfl
      simp only [hnames, Mark.package?, Mark.import?, Mark.place?, Mark.group?, List.flatMap_cons,
        List.count_append]
      omega
    | member package m =>
      have hnames : namesIn (.member package m) = [package, m] := rfl
      simp only [hnames, Mark.package?, Mark.import?, Mark.place?, Mark.group?, List.flatMap_cons,
        List.count_append]
      omega
    | rank ns =>
      simp only [namesIn_rank, Mark.package?, Mark.import?, Mark.place?, Mark.group?,
        List.flatten_cons, List.count_append]
      omega

namespace Pictures

theorem perm_namesIn (h : g.Pictures marks) (h' : g.Pictures marks') :
    (marks.flatMap namesIn).Perm (marks'.flatMap namesIn) := by
  refine (perm_namesByKind marks).trans (.trans ?_ (perm_namesByKind marks').symm)
  have hpackages : (marks.filterMap Mark.package?).Perm (marks'.filterMap Mark.package?) :=
    (List.perm_ext_iff_of_nodup h.nodup_packages h'.nodup_packages).mpr fun p ↦ by
      rw [h.mem_packages, h'.mem_packages]
  have himports : (marks.filterMap Mark.import?).Perm (marks'.filterMap Mark.import?) :=
    (List.perm_ext_iff_of_nodup h.nodup_imports.of_map h'.nodup_imports.of_map).mpr fun
      (a, b, free) ↦ by
      rw [h.mem_imports, h'.mem_imports]
  have hplaces : (marks.filterMap Mark.place?).Perm (marks'.filterMap Mark.place?) :=
    (List.perm_ext_iff_of_nodup h.nodup_places h'.nodup_places).mpr fun (p, m) ↦ by
      rw [h.mem_places, h'.mem_places]
  exact ((hpackages.append (himports.flatMap_right _)).append (hplaces.flatMap_right _)).append
    (h.perm.trans h'.perm.symm)

theorem mem_namesIn_iff (hg : g.Sound) (h : g.Pictures marks) (n : String) :
    n ∈ marks.flatMap namesIn ↔ n ∈ g.names := by
  have hname {k : GraphNode} (hk : k ∈ g.nodes) : k.name ∈ g.names := List.mem_map_of_mem hk
  rw [(perm_namesByKind marks).mem_iff]
  simp only [namesByKind, List.mem_append, List.mem_flatMap, h.perm.mem_iff]
  constructor
  · rintro (((hpackage | ⟨⟨a, b, free⟩, himport, hn⟩) | ⟨⟨p, m⟩, hplace, hn⟩) | hn)
    · obtain ⟨k, hk, rfl, -⟩ := (h.mem_packages n).mp hpackage
      exact hname hk
    · obtain ⟨⟨k, hk, rfl, hb, -⟩, -⟩ := (h.mem_imports a b free).mp himport
      simp only [List.mem_cons, List.not_mem_nil, or_false] at hn
      rcases hn with rfl | rfl
      · exact hname hk
      · exact hg.known k hk n hb
    · obtain ⟨-, k, hk, l, hl, rfl, rfl, -⟩ := (h.mem_places p m).mp hplace
      simp only [List.mem_cons, List.not_mem_nil, or_false] at hn
      rcases hn with rfl | rfl
      · exact hname hl
      · exact hname hk
    · exact hn
  · exact fun hn ↦ .inr hn

end Pictures

/-! ## The marks of a graph -/

theorem filterMap_marks {α : Type} (g : ImportGraph) (f : Mark → Option α) : g.marks.filterMap f =
    (g.nodes.flatMap fun n ↦ (marksOf n).filterMap f) ++
    (g.nodes.filterMap fun n ↦ (g.memberMark? n).bind f) ++
      (((List.range g.height).map g.onLevel).filter (!·.isEmpty)).filterMap fun ns ↦
      f (.rank ns) := by
  rw [marks, List.filterMap_append, List.filterMap_append, List.filterMap_flatMap,
    List.filterMap_filterMap, List.filterMap_map]
  rfl

theorem place_eq_some_iff {n : GraphNode} {p m : String} :
    (g.memberMark? n).bind Mark.place? = some (p, m) ↔
    m = n.name ∧ Name.parent? m = some p ∧ ∃ k, g.node? p = some k ∧ p ∉ n.imports ∧
      m ∉ k.imports := by
  rw [Option.bind_eq_some_iff]
  simp only [memberMark?_eq_some_iff]
  constructor
  · rintro ⟨mark, ⟨package, k, hparent, hnode, himport, himported, rfl⟩, hplace⟩
    obtain ⟨rfl, rfl⟩ := Prod.mk.inj (Option.some.inj hplace)
    exact ⟨rfl, hparent, k, hnode, himport, himported⟩
  · rintro ⟨rfl, hparent, k, hnode, himport, himported⟩
    exact ⟨_, ⟨p, k, hparent, hnode, himport, himported, rfl⟩, rfl⟩

theorem filterMap_memberMark?_eq_nil {α : Type} {f : Mark → Option α}
    (hf : ∀ p m, f (.member p m) = none) :
    (g.nodes.filterMap fun n ↦ (g.memberMark? n).bind f) = [] := by
  refine List.filterMap_eq_nil_iff.mpr fun n _ ↦ ?_
  cases hmark : g.memberMark? n with
  | none => rfl
  | some mark =>
    obtain ⟨package, k, -, -, -, -, rfl⟩ := memberMark?_eq_some_iff.mp hmark
    exact hf package n.name

theorem filterMap_package?_marks (g : ImportGraph) :
    g.marks.filterMap Mark.package? = (g.nodes.filter GraphNode.isPackage).map GraphNode.name := by
  have hnode (n : GraphNode) :
      (marksOf n).filterMap Mark.package? = if n.isPackage then [n.name] else [] := by
    cases hn : n.isPackage <;> simp [marksOf, hn, Mark.package?]
  rw [filterMap_marks, filterMap_memberMark?_eq_nil fun p m ↦ rfl]
  have hranks (ns : List String) : Mark.package? (.rank ns) = none := rfl
  simp only [hnode, hranks, List.filterMap_none, List.append_nil]
  generalize g.nodes = nodes
  induction nodes with
  | nil => rfl
  | cons n nodes ih =>
    rw [List.flatMap_cons, ih, List.filter_cons]
    split <;> rfl

theorem filterMap_import?_marks (g : ImportGraph) : g.marks.filterMap Mark.import? =
    g.nodes.flatMap fun n ↦ (drawnImports n).map fun i ↦
    (n.name, i, decide (Name.level i ≤ Name.level n.name)) := by
  have hnode (n : GraphNode) : (marksOf n).filterMap Mark.import? =
      (drawnImports n).map fun i ↦ (n.name, i, decide (Name.level i ≤ Name.level n.name)) := by
    cases hn :
      n.isPackage <;> simp [marksOf, hn, Mark.import?, Function.comp_def, List.filterMap_cons]
  rw [filterMap_marks, filterMap_memberMark?_eq_nil fun p m ↦ rfl]
  simp [hnode, Mark.import?]

theorem filterMap_place?_marks (g : ImportGraph) : g.marks.filterMap Mark.place? =
    g.nodes.filterMap fun n ↦ (g.memberMark? n).bind Mark.place? := by
  have hnode (n : GraphNode) : (marksOf n).filterMap Mark.place? = [] := by
    cases hn : n.isPackage <;> simp [marksOf, hn, Mark.place?]
  rw [filterMap_marks]
  simp [hnode, Mark.place?]

theorem filterMap_group?_marks (g : ImportGraph) : g.marks.filterMap Mark.group? =
    ((List.range g.height).map g.onLevel).filter (!·.isEmpty) := by
  have hnode (n : GraphNode) : (marksOf n).filterMap Mark.group? = [] := by
    cases hn : n.isPackage <;> simp [marksOf, hn, Mark.group?]
  rw [filterMap_marks, filterMap_memberMark?_eq_nil fun p m ↦ rfl]
  simp [hnode, Mark.group?]

theorem level_lt_height {n : String} (hn : n ∈ g.names) : Name.level n < g.height := by
  rw [height, List.foldl_max]
  exact lt_max_of_lt_right (List.le_max?_getD_of_mem (List.mem_map_of_mem hn))

theorem mem_onLevel_iff {n : String} {level : Nat} :
    n ∈ g.onLevel level ↔ n ∈ g.names ∧ Name.level n = level := by
  rw [onLevel, List.mem_filter, decide_eq_true_eq]

theorem nodup_flatMap {α : Type} (hg : g.Sound) {f : GraphNode → List α}
    (hf : ∀ n ∈ g.nodes, (f n).Nodup) (key : α → String)
    (hkey : ∀ n ∈ g.nodes, ∀ a ∈ f n, key a = n.name) : (g.nodes.flatMap f).Nodup := by
  refine List.nodup_flatMap.mpr ⟨hf, ?_⟩
  have hnames : g.nodes.Pairwise fun m n ↦ m.name ≠ n.name := List.pairwise_map.mp hg.names
  refine hnames.imp_of_mem fun hm hn hne a ham han ↦ hne ?_
  rw [← hkey _ hm a ham, ← hkey _ hn a han]

theorem level_eq_of_mem_groups {l : List String} (h : l ∈ g.marks.filterMap Mark.group?) :
    ∃ level, l = g.onLevel level ∧ l ≠ [] := by
  rw [filterMap_group?_marks, List.mem_filter] at h
  obtain ⟨level, -, rfl⟩ := List.mem_map.mp h.1
  exact ⟨level, rfl, by simpa using h.2⟩

theorem perm_flatten_groups (hg : g.Sound) :
    (g.marks.filterMap Mark.group?).flatten.Perm g.names := by
  rw [filterMap_group?_marks, List.flatten_filter_not_isEmpty, ← List.flatMap_def]
  have hnodup : ((List.range g.height).flatMap g.onLevel).Nodup := by
    refine List.nodup_flatMap.mpr ⟨fun level _ ↦ hg.names.filter _, ?_⟩
    refine List.nodup_range.imp fun hne n hn hn' ↦ hne ?_
    rw [← (mem_onLevel_iff.mp hn).2, (mem_onLevel_iff.mp hn').2]
  refine (List.perm_ext_iff_of_nodup hnodup hg.names).mpr fun n ↦ ?_
  simp only [List.mem_flatMap, List.mem_range, mem_onLevel_iff]
  constructor
  · rintro ⟨level, -, hn, -⟩
    exact hn
  · exact fun hn ↦ ⟨Name.level n, level_lt_height hn, hn, rfl⟩

theorem Sound.pictures (hg : g.Sound) : g.Pictures g.marks where
  nodup_packages := by
    rw [filterMap_package?_marks]
    exact hg.names.sublist (List.filter_sublist.map _)
  mem_packages p := by
    rw [filterMap_package?_marks, List.mem_map]
    simp only [List.mem_filter, and_assoc]
    exact exists_congr fun n ↦ and_congr_right fun _ ↦ and_comm
  nodup_imports := by
    rw [filterMap_import?_marks, List.map_flatMap]
    simp only [List.map_map, Function.comp_def]
    refine nodup_flatMap hg (fun n hn ↦ ?_) Prod.fst fun n _ a ha ↦ ?_
    · exact ((hg.imports n hn).filter _).map fun i j h ↦ (Prod.mk.inj h).2
    · obtain ⟨i, -, rfl⟩ := List.mem_map.mp ha
      rfl
  mem_imports a b free := by
    rw [filterMap_import?_marks]
    simp only [List.mem_flatMap, List.mem_map, drawnImports, List.mem_filter, Prod.mk.injEq]
    constructor
    · rintro ⟨n, hn, i, ⟨hi, haround⟩, rfl, rfl, rfl⟩
      exact ⟨⟨n, hn, rfl, hi, by simpa using haround⟩, decide_eq_true_iff⟩
    · rintro ⟨⟨n, hn, rfl, hb, haround⟩, hfree⟩
      refine ⟨n, hn, b, ⟨hb, by simpa using haround⟩, rfl, rfl, ?_⟩
      exact Bool.eq_iff_iff.mpr (decide_eq_true_iff.trans hfree.symm)
  nodup_places := by
    rw [filterMap_place?_marks, List.filterMap_eq_flatMap_toList]
    refine nodup_flatMap hg (fun n _ ↦ ?_) Prod.snd fun n _ (p, m) h ↦ ?_
    · cases (g.memberMark? n).bind Mark.place? <;> simp
    · exact (place_eq_some_iff.mp (Option.mem_toList.mp h)).1
  mem_places p m := by
    rw [filterMap_place?_marks, List.mem_filterMap]
    simp only [place_eq_some_iff]
    constructor
    · rintro ⟨n, hn, rfl, hparent, k, hnode, himports⟩
      exact ⟨hparent, n, hn, k, List.mem_of_find?_eq_some hnode,
        rfl, by simpa using List.find?_some hnode, himports⟩
    · rintro ⟨hparent, n, hn, k, hk, rfl, rfl, himports⟩
      exact ⟨n, hn, rfl, hparent, k, hg.node?_eq hk, himports⟩
  nonempty h := (level_eq_of_mem_groups h).choose_spec.2 rfl
  perm := perm_flatten_groups hg
  level_eq l hl a ha b hb := by
    obtain ⟨level, rfl, -⟩ := level_eq_of_mem_groups hl
    rw [(mem_onLevel_iff.mp ha).2, (mem_onLevel_iff.mp hb).2]
  increasing := by
    rw [filterMap_group?_marks]
    refine List.Pairwise.filter _ (List.pairwise_map.mpr (List.pairwise_lt_range.imp ?_))
    intro level level' hlt a ha b hb
    rwa [(mem_onLevel_iff.mp ha).2, (mem_onLevel_iff.mp hb).2]

/-! ## Drawings -/

/-- Whether the names of a graph and the text of its root stand for themselves in quotes. -/
def IsLegible (g : ImportGraph) : Prop :=
  Legible g.root.text ∧ ∀ n ∈ g.names, Legible n

instance (g : ImportGraph) : Decidable g.IsLegible :=
  inferInstanceAs (Decidable (_ ∧ _))

theorem isLegible_iff (hg : g.Sound) :
    g.IsLegible ↔ ∀ n ∈ (piecesOf g).flatMap Piece.names, Legible n := by
  rw [flatMap_names_piecesOf, List.forall_mem_cons, IsLegible]
  simp only [hg.pictures.mem_namesIn_iff hg]

end ImportGraph

/-! ## A module with a quotation mark in its name -/

namespace FileSystem

open ModuleReload.Path SourceTree

/-- A source whose name has a quotation mark. -/
def quotation : FileSystem where
  entries := [(["a\"b.py"], .file (.text "") 0)]
  workingDirectory := .root

theorem sourcesFrom_quotation :
    sourcesFrom quotation (.ofNames []) = [(⟨"a\"b", none, false⟩, ⟨true, ["a\"b.py"]⟩)] := by
  have hplace : placeOf? quotation (.ofNames []) = some [] := by decide
  have hfound : (quotation.entries.filterMap (walkedTo? [])).filter (isRead (.ofNames [])) =
      [["a\"b.py"]] := by decide
  rw [sourcesFrom_of_pairwise hplace hfound (by decide)]
  decide +kernel

end FileSystem

namespace ImportGraph

open Dot FileSystem SourceTree

variable {fs : FileSystem} {scope : Source.Scope} {root : Path} {g : ImportGraph}
  {notices : List Notice}

def ofQuotation : ImportGraph :=
  ⟨.ofNames [], [⟨"a\"b", false, []⟩]⟩

theorem scan_quotation :
    ∃ notices, scan .quotation .topLevel (.ofNames []) = .ok (ofQuotation, notices) := by
  have hmodules : byName (newModules 0 (firstOfEachName (sourcesFrom quotation (.ofNames [])))) =
      [⟨0, "a\"b", some ⟨true, ["a\"b.py"]⟩, none⟩] := by
    rw [sourcesFrom_quotation]
    exact List.mergeSort_singleton _
  obtain ⟨tree, notices, hscan, hroot, htree⟩ := exists_scan_eq (by decide) (by decide) hmodules
  have hgraph : (ofTree quotation .topLevel tree).1 = ofQuotation := by
    rw [ofTree, SourceTree.names, hroot, htree]
    decide +kernel
  exact ⟨notices, hgraph ▸ hscan⟩

/-- **Reading a drawing.** The drawing of a scanned tree is in the language, and the graph can be
told from it, if and only if its names stand for themselves in quotes: a name is written as it is,
and nothing in it is escaped. -/
theorem exists_pictures_iff (h : scan fs scope root = .ok (g, notices)) :
    (∃ marks, Dot.read g.draw = some ⟨g.root.text, marks⟩ ∧ g.Pictures marks) ↔ g.IsLegible := by
  have hg : g.Sound := .scan h
  rw [isLegible_iff hg]
  constructor
  · rintro ⟨marks, hread, hmarks⟩
    exact legible_of_read hread (hmarks.perm_namesIn hg.pictures)
  · exact fun hlegible ↦ ⟨g.marks, read_draw hlegible, hg.pictures⟩

/-- The graph of the package can be told from its drawing; that of the source with a quotation mark
in its name cannot. -/
theorem exists_pictures_iff_quotation :
    (∃ g notices, scan .family .topLevel (.ofNames []) = .ok (g, notices) ∧ g.IsLegible ∧
      ∃ marks, Dot.read g.draw = some ⟨g.root.text, marks⟩ ∧ g.Pictures marks) ∧
    ∃ g notices, scan .quotation .topLevel (.ofNames []) = .ok (g, notices) ∧ ¬g.IsLegible ∧
      ¬∃ marks, Dot.read g.draw = some ⟨g.root.text, marks⟩ ∧ g.Pictures marks := by
  obtain ⟨notices, h⟩ := scan_family
  obtain ⟨notices', h'⟩ := scan_quotation
  have hlegible : ofFamily.IsLegible := by decide
  have hnot : ¬ofQuotation.IsLegible := by decide
  exact ⟨⟨ofFamily, notices, h, hlegible, (exists_pictures_iff h).mpr hlegible⟩,
    ofQuotation, notices', h', hnot, mt (exists_pictures_iff h').mp hnot⟩

end ImportGraph

end ModuleReload
