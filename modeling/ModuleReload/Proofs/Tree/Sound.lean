import Mathlib.Data.List.Nodup
import Mathlib.Tactic.ByContra
import ModuleReload.Proofs.Engine.Sight
import ModuleReload.Proofs.FileSystem.Spelling
import ModuleReload.Tree.Basic

/-!
# Trees as they come about

A tree is made by a scan and changed by refreshes and reloads. However that has happened
(`SourceTree.Sound`), its modules have distinct names, each has a record of its own, and no two of
them have one source, however their paths are spelled. The first and the last come from the scan:
names are taken once, and the path of a source says its name.

A scan takes the names of files as they are, and the last part needs that none of them is empty
(`FileSystem.Named`), which no directory allows.
-/

namespace ModuleReload

/-- No file has an empty name on its way. -/
def FileSystem.Named (fs : FileSystem) : Prop :=
  ∀ e ∈ fs.entries, "" ∉ e.1

namespace SourceTree

open FileSystem ModuleReload.Path

/-! ## What a scan finds -/

/-- A path below a root, through names that each stand for themselves. -/
def Below (root p : Path) : Prop :=
  ∃ names, p = ⟨root.rooted, root.pieces ++ names⟩ ∧ solid names = names

theorem Below.eq_of_components {root p q : Path} (hp : Below root p) (hq : Below root q)
    (h : p.components = q.components) : p = q := by
  obtain ⟨ns, rfl, hns⟩ := hp
  obtain ⟨ms, rfl, hms⟩ := hq
  have hsolid : solid (root.pieces ++ ns) = solid (root.pieces ++ ms) := by
    have hpieces := congrArg (List.filterMap pieceOf?) h
    rw [filterMap_components, filterMap_components] at hpieces
    exact hpieces
  have hnames : solid ns = solid ms := by
    rw [solid, solid, List.filter_append, List.filter_append] at hsolid
    exact List.append_cancel_left hsolid
  rw [hns, hms] at hnames
  rw [hnames]

theorem solid_of_walkedTo? {fs : FileSystem} (hfs : fs.Named) {root names : Location}
    {e : Location × Entry} (he : e ∈ fs.entries) (hwalk : walkedTo? root e = some names) :
    solid names = names := by
  obtain ⟨l, entry⟩ := e
  cases entry with
  | directory t => simp [walkedTo?] at hwalk
  | link target => simp [walkedTo?] at hwalk
  | file content t =>
    simp only [walkedTo?, Option.ite_none_right_eq_some] at hwalk
    obtain ⟨⟨-, hhidden, -⟩, hnames⟩ := hwalk
    obtain rfl := Option.some.inj hnames
    refine List.filter_eq_self.mpr fun n hn ↦ ?_
    have hempty : n ≠ "" := by
      rintro rfl
      exact hfs _ he (List.mem_of_mem_drop hn)
    have hdot : n ≠ "." := by
      rintro rfl
      simp only [Bool.not_eq_true', List.any_eq_false] at hhidden
      exact hhidden "." hn (by decide)
    simp [hempty, hdot]

/-- What a scan takes for a source lies below the root, has the extension of one, and its path says
what it is. -/
structure IsSource (fs : FileSystem) (root : Path) (s : Place.Spec × Path) : Prop where
  below : Below root s.2
  extension : s.2.extension? = some Place.sourceExtension
  spec : Place.Spec.of? fs s.2 = some s.1

theorem isSource_of_mem {fs : FileSystem} (hfs : fs.Named) {root : Path} {s : Place.Spec × Path}
    (hs : s ∈ sourcesFrom fs root) : IsSource fs root s := by
  rw [sourcesFrom, List.mem_filterMap] at hs
  obtain ⟨names, hnames, hs⟩ := hs
  rw [List.mem_mergeSort] at hnames
  have hsolid : solid names = names := by
    split at hnames
    · obtain ⟨e, he, hwalk⟩ := List.mem_filterMap.mp (List.mem_filter.mp hnames).1
      exact solid_of_walkedTo? hfs he hwalk
    · simp at hnames
  simp only [Option.ite_none_right_eq_some, Option.map_eq_some_iff] at hs
  obtain ⟨hextension, spec, hspec, rfl⟩ := hs
  exact ⟨⟨names, rfl, hsolid⟩, hextension, hspec⟩

theorem mem_of_mem_firstOfEachName {ss : List (Place.Spec × Path)} {s : Place.Spec × Path}
    (hs : s ∈ firstOfEachName ss) : s ∈ ss := by
  induction ss with
  | nil => exact hs
  | cons a ss ih =>
    rcases List.mem_cons.mp hs with rfl | hs
    · exact List.mem_cons_self
    · exact List.mem_cons_of_mem _ (ih (List.mem_filter.mp hs).1)

theorem nodup_firstOfEachName (ss : List (Place.Spec × Path)) :
    ((firstOfEachName ss).map fun s ↦ s.1.name).Nodup := by
  induction ss with
  | nil => exact List.nodup_nil
  | cons a ss ih =>
    rw [firstOfEachName, List.map_cons, List.nodup_cons]
    refine ⟨?_, (List.filter_sublist.map _).nodup ih⟩
    intro hmem
    obtain ⟨s, hs, hname⟩ := List.mem_map.mp hmem
    simpa [hname] using (List.mem_filter.mp hs).2

/-! ## New modules -/

theorem exists_of_mem_newModules {next : Nat} {ss : List (Place.Spec × Path)} {m : Module}
    (hm : m ∈ newModules next ss) : ∃ s ∈ ss, m.name = s.1.name ∧ m.file = some s.2 := by
  induction ss generalizing next with
  | nil => simp [newModules] at hm
  | cons s ss ih =>
    rw [newModules] at hm
    rcases List.mem_cons.mp hm with rfl | hm
    · exact ⟨s, List.mem_cons_self, rfl, rfl⟩
    · obtain ⟨a, ha, hname⟩ := ih hm
      exact ⟨a, List.mem_cons_of_mem _ ha, hname⟩

theorem map_name_newModules (next : Nat) (ss : List (Place.Spec × Path)) :
    (newModules next ss).map Module.name = ss.map fun s ↦ s.1.name := by
  induction ss generalizing next with
  | nil => rfl
  | cons s ss ih => rw [newModules, List.map_cons, List.map_cons, ih]

theorem map_id_newModules (next : Nat) (ss : List (Place.Spec × Path)) :
    (newModules next ss).map Module.id = List.range' next ss.length := by
  induction ss generalizing next with
  | nil => rfl
  | cons s ss ih => rw [newModules, List.map_cons, ih, List.length_cons, List.range'_succ]

/-- Kept and new modules have distinct names if the new ones are of names that none of the kept
has. -/
theorem nodup_map_name {next : Nat} {kept : List Module} {fresh : List (Place.Spec × Path)}
    (hkept : (kept.map Module.name).Nodup) (hfresh : (fresh.map fun s ↦ s.1.name).Nodup)
    (hnew : ∀ s ∈ fresh, ∀ m ∈ kept, m.name ≠ s.1.name) :
    ((kept ++ newModules next fresh).map Module.name).Nodup := by
  rw [List.map_append, map_name_newModules, List.nodup_append]
  refine ⟨hkept, hfresh, ?_⟩
  rintro n hn n' hn' rfl
  obtain ⟨m, hm, rfl⟩ := List.mem_map.mp hn
  obtain ⟨s, hs, hname⟩ := List.mem_map.mp hn'
  exact hnew s hs m hm hname.symm

/-- They have distinct identities if those of the kept ones were given before. -/
theorem nodup_map_id {next : Nat} {kept : List Module} {fresh : List (Place.Spec × Path)}
    (hkept : (kept.map Module.id).Nodup) (hbefore : ∀ m ∈ kept, m.id < next) :
    ((kept ++ newModules next fresh).map Module.id).Nodup := by
  rw [List.map_append, map_id_newModules, List.nodup_append]
  refine ⟨hkept, List.nodup_range', ?_⟩
  rintro i hi j hj rfl
  obtain ⟨m, hm, rfl⟩ := List.mem_map.mp hi
  have hlt := hbefore m hm
  have hle := (List.mem_range'_1.mp hj).1
  omega

/-! ## Sound trees -/

/-- What holds of a tree however it came about. -/
structure Sound (tree : SourceTree) : Prop where
  names : (tree.modules.map Module.name).Nodup
  ids : (tree.modules.map Module.id).Nodup
  recorded : ∀ m ∈ tree.modules, m.id < tree.records.length
  /-- Each module is that of a source below the root. -/
  source : ∀ m ∈ tree.modules, ∃ p, m.file = some p ∧ Below tree.root p ∧
    p.extension? = some Place.sourceExtension
  /-- No two modules are of one file. -/
  files : ∀ m ∈ tree.modules, ∀ n ∈ tree.modules, m.file = n.file → m = n

namespace Sound

variable {tree : SourceTree} {fs : FileSystem}

theorem empty (root : Path) : Sound ⟨root, [], []⟩ where
  names := List.nodup_nil
  ids := List.nodup_nil
  recorded m hm := by simp at hm
  source m hm := by simp at hm
  files m hm := by simp at hm

theorem eq_of_name (ht : tree.Sound) {m n : Module} (hm : m ∈ tree.modules)
    (hn : n ∈ tree.modules) (h : m.name = n.name) : m = n :=
  List.inj_on_of_nodup_map ht.names hm hn h

theorem eq_of_id (ht : tree.Sound) {m n : Module} (hm : m ∈ tree.modules)
    (hn : n ∈ tree.modules) (h : m.id = n.id) : m = n :=
  List.inj_on_of_nodup_map ht.ids hm hn h

theorem file_of_sourceOf? (ht : tree.Sound) {m : Module} (hm : m ∈ tree.modules) {p : Path}
    (hp : Dependencies.sourceOf? fs m = some p) : m.file = some p := by
  obtain ⟨q, hq, -, hextension⟩ := ht.source m hm
  rw [Dependencies.sourceOf?, hq, Option.bind_some, Place.editableSource?, hextension] at hp
  have hp' := (Option.filter_eq_some_iff.mp hp).1
  rw [hq, ← hp']
  rfl

theorem eq_of_sameSource (ht : tree.Sound) {m n : Module} (hm : m ∈ tree.modules)
    (hn : n ∈ tree.modules) (h : m.SameSource fs n) : m = n := by
  obtain ⟨p, q, hp, hq, hpq⟩ := h
  have hfile := ht.file_of_sourceOf? hm hp
  have hfile' := ht.file_of_sourceOf? hn hq
  obtain ⟨p', hp', hbelow, -⟩ := ht.source m hm
  obtain ⟨q', hq', hbelow', -⟩ := ht.source n hn
  obtain rfl : p = p' := Option.some.inj (hfile.symm.trans hp')
  obtain rfl : q = q' := Option.some.inj (hfile'.symm.trans hq')
  refine ht.files m hm n hn ?_
  rw [hfile, hfile', hbelow.eq_of_components hbelow' hpq]

/-- Kept and new modules are all of different names and of sources that were found. -/
theorem of_found {root : Path} {records records' : List SourceRecord} {kept : List Module}
    {sources fresh : List (Place.Spec × Path)} (hfound : ∀ s ∈ sources, IsSource fs root s)
    (hnames : (sources.map fun s ↦ s.1.name).Nodup) (hsub : fresh.Sublist sources)
    (hkeptNames : (kept.map Module.name).Nodup) (hkeptIds : (kept.map Module.id).Nodup)
    (hkeptRecorded : ∀ m ∈ kept, m.id < records.length)
    (hkept : ∀ m ∈ kept, ∃ s ∈ sources, m.name = s.1.name ∧ m.file = some s.2)
    (hnew : ∀ s ∈ fresh, ∀ m ∈ kept, m.name ≠ s.1.name)
    (hlength : records'.length = records.length + fresh.length) :
    Sound ⟨root, byName (kept ++ newModules records.length fresh), records'⟩ := by
  have hperm : (byName (kept ++ newModules records.length fresh)).Perm
      (kept ++ newModules records.length fresh) := List.mergeSort_perm _ _
  have hall : ∀ m ∈ kept ++ newModules records.length fresh,
      ∃ s ∈ sources, m.name = s.1.name ∧ m.file = some s.2 := by
    intro m hm
    rcases List.mem_append.mp hm with hm | hm
    · exact hkept m hm
    · obtain ⟨s, hs, hsm⟩ := exists_of_mem_newModules hm
      exact ⟨s, hsub.subset hs, hsm⟩
  have hnodup : ((kept ++ newModules records.length fresh).map Module.name).Nodup :=
    nodup_map_name hkeptNames ((hsub.map _).nodup hnames) hnew
  refine ⟨(hperm.map _).nodup_iff.mpr hnodup,
    (hperm.map _).nodup_iff.mpr (nodup_map_id hkeptIds hkeptRecorded), ?_, ?_, ?_⟩
  · intro m hm
    rw [hlength]
    rcases List.mem_append.mp (hperm.mem_iff.mp hm) with hm | hm
    · have hlt := hkeptRecorded m hm
      omega
    · have hid : m.id ∈ (newModules records.length fresh).map Module.id := List.mem_map_of_mem hm
      rw [map_id_newModules] at hid
      exact (List.mem_range'_1.mp hid).2
  · intro m hm
    obtain ⟨s, hs, -, hfile⟩ := hall m (hperm.mem_iff.mp hm)
    exact ⟨s.2, hfile, (hfound s hs).below, (hfound s hs).extension⟩
  · -- Modules of one file have one name, since the path of a source says its name.
    intro m hm n hn hfile
    obtain ⟨s, hs, hname, hs'⟩ := hall m (hperm.mem_iff.mp hm)
    obtain ⟨a, ha, haname, ha'⟩ := hall n (hperm.mem_iff.mp hn)
    have hpath : s.2 = a.2 := Option.some.inj (hs'.symm.trans (hfile.trans ha'))
    have hspec : s.1 = a.1 := by
      have hboth := (hfound s hs).spec.symm.trans (hpath ▸ (hfound a ha).spec)
      exact Option.some.inj hboth
    refine List.inj_on_of_nodup_map hnodup (hperm.mem_iff.mp hm) (hperm.mem_iff.mp hn) ?_
    rw [hname, haname, hspec]

theorem refresh (ht : tree.Sound) (hfs : fs.Named) : (refresh fs tree).2.1.Sound := by
  refine of_found (fun s hs ↦ isSource_of_mem hfs (mem_of_mem_firstOfEachName hs))
    (nodup_firstOfEachName _) List.filter_sublist ((List.filter_sublist.map _).nodup ht.names)
    ((List.filter_sublist.map _).nodup ht.ids)
    (fun m hm ↦ ht.recorded m (List.mem_filter.mp hm).1) ?_ ?_ ?_
  · intro m hm
    obtain ⟨s, hs, hsm⟩ := List.any_eq_true.mp (List.mem_filter.mp hm).2
    have hsm' := of_decide_eq_true hsm
    exact ⟨s, hs, hsm'.1.symm, hsm'.2.symm⟩
  · intro s hs m hm hname
    have hno := (List.mem_filter.mp hs).2
    simp only [Bool.not_eq_true', List.any_eq_false] at hno
    exact hno m hm (decide_eq_true hname)
  · rw [List.length_append, List.length_map]

theorem scan (hfs : fs.Named) {root : Path} {notices : List Notice}
    (h : SourceTree.scan fs root = .ok (tree, notices)) : tree.Sound := by
  rw [SourceTree.scan] at h
  split at h
  · obtain ⟨rfl, -⟩ := Prod.mk.inj (Except.ok.inj h)
    exact (empty _).refresh hfs
  · simp at h

end Sound

theorem mem_refresh_of_isEmpty (fs : FileSystem) (tree : SourceTree)
    (h : (refresh fs tree).1.isEmpty = true) {m : Module} (hm : m ∈ tree.modules) :
    m ∈ (refresh fs tree).2.1.modules := by
  have hremoved : (refresh fs tree).1.removed = [] := by
    rw [Changes.isEmpty, Bool.and_eq_true, List.isEmpty_iff, List.isEmpty_iff] at h
    exact h.2
  refine (List.mergeSort_perm _ _).mem_iff.mpr (List.mem_append_left _ ?_)
  refine List.mem_filter.mpr ⟨hm, ?_⟩
  by_contra hgone
  have hname : m.name ∈ (refresh fs tree).1.removed := by
    refine Text.mem_sorted.mpr (List.mem_map_of_mem (List.mem_filter.mpr ⟨hm, ?_⟩))
    simpa using hgone
  rw [hremoved] at hname
  simp at hname

end SourceTree

end ModuleReload
