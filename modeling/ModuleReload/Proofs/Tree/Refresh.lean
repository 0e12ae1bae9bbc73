import ModuleReload.Proofs.FileSystem.Orderly
import ModuleReload.Proofs.Tree.Found

/-!
# Refreshes and scans

A refresh keeps the modules whose names and paths are still found and makes new ones for the rest.
What it comes to depends on the file system alone and not on the tree before (`places_refresh_eq`):
it is what a scan of the same root comes to, since a scan is a refresh of the tree without modules.
That holds of packages too, although a kept module keeps the package that it was found with, because
the package is told by the path and the name (`Place.packageOf`), and these are what a module is
kept by.
-/

namespace ModuleReload

/-! ## Packages -/

namespace Place

/-- The package of a module, as its path and its name say it. -/
def packageOf (p : Path) (name : String) : Option String :=
  if p.stem? = some ownStem then some name else Name.parent? name

theorem package_of_spec {fs : FileSystem} {p : Path} {spec : Spec} (h : Spec.of? fs p = some spec) :
    spec.package = packageOf p spec.name := by
  have hencode : Text.encode ownStem = ownStem := by decide
  obtain ⟨stem, hstem, hcases⟩ := Spec.of?_cases h
  have hstem := Text.bind_decode?_eq_some_iff.mp hstem
  obtain ⟨rfl, -, rfl⟩ | ⟨hown, rfl⟩ := hcases
  · rw [packageOf, if_pos (hstem.trans (congrArg some hencode))]
  · rw [packageOf, if_neg fun h ↦ hown ?_]
    exact Text.encode_inj.mp ((Option.some.inj (hstem.symm.trans h)).trans hencode.symm)

end Place

namespace SourceTree

open FileSystem

variable {fs : FileSystem} {tree : SourceTree} {m : Module} {s : Place.Spec × Path}

/-! ## Trees that have come about -/

/-- A tree that was made by a scan and has been refreshed and read again since, each in any file
system. -/
inductive Reached : SourceTree → Prop
  | scan {fs : FileSystem} (hfs : fs.Named) {root : Path} {tree : SourceTree}
      {notices : List Notice} :
      scan fs root = .ok (tree, notices) → Reached tree
  | refresh {fs : FileSystem} (hfs : fs.Named) {tree : SourceTree} :
      Reached tree → Reached (refresh fs tree).2.1
  | readAgain (fs : FileSystem) (m : Module) {tree : SourceTree} :
      Reached tree → Reached (tree.readAgain fs m)

/-- The module is that of a source that was found. -/
structure IsOf (m : Module) (s : Place.Spec × Path) : Prop where
  name : m.name = s.1.name
  file : m.file = some s.2
  package : m.package = s.1.package

/-- Each module is in the package that its path and its name say. -/
def Packaged (tree : SourceTree) : Prop :=
  ∀ m ∈ tree.modules, ∃ p, m.file = some p ∧ m.package = Place.packageOf p m.name

/-- The sources that a refresh takes up. -/
def sources (fs : FileSystem) (root : Path) : List (Place.Spec × Path) :=
  firstOfEachName (sourcesFrom fs root)

theorem isSource_of_mem_sources (hfs : fs.Named) {root : Path} (hs : s ∈ sources fs root) :
    IsSource fs root s :=
  isSource_of_mem hfs (mem_of_mem_firstOfEachName hs)

theorem eq_of_mem_sources {root : Path} {a b : Place.Spec × Path} (ha : a ∈ sources fs root)
    (hb : b ∈ sources fs root) (h : a.1.name = b.1.name) : a = b :=
  List.inj_on_of_nodup_map (nodup_firstOfEachName _) ha hb h

theorem isOf_of_mem_newModules {next : Nat} {ss : List (Place.Spec × Path)}
    (hm : m ∈ newModules next ss) : ∃ s ∈ ss, IsOf m s := by
  obtain ⟨i, s, hs, rfl⟩ := exists_getElem?_of_mem_newModules hm
  exact ⟨s, List.mem_of_getElem? hs, rfl, rfl, rfl⟩

theorem exists_newModule (next : Nat) {ss : List (Place.Spec × Path)} (hs : s ∈ ss) :
    ∃ m ∈ newModules next ss, IsOf m s := by
  induction ss generalizing next with
  | nil => simp at hs
  | cons a ss ih =>
    rw [newModules]
    obtain rfl | hs := List.mem_cons.mp hs
    · exact ⟨_, List.mem_cons_self, rfl, rfl, rfl⟩
    · obtain ⟨m, hm, hof⟩ := ih (next + 1) hs
      exact ⟨m, List.mem_cons_of_mem _ hm, hof⟩

/-! ## What is kept and what is new -/

/-- The modules whose names and paths are still found. -/
def kept (fs : FileSystem) (tree : SourceTree) : List Module :=
  tree.modules.filter fun m ↦ (sources fs tree.root).any fun s ↦ s.1.name = m.name ∧
    some s.2 = m.file

/-- The sources that none of these is the module of. -/
def unclaimed (fs : FileSystem) (tree : SourceTree) : List (Place.Spec × Path) :=
  (sources fs tree.root).filter fun s ↦ !(kept fs tree).any (·.name = s.1.name)

/-- The modules that are not kept. -/
def gone (fs : FileSystem) (tree : SourceTree) : List Module :=
  tree.modules.filter fun m ↦ !(sources fs tree.root).any fun s ↦ s.1.name = m.name ∧
    some s.2 = m.file

theorem changes_refresh (fs : FileSystem) (tree : SourceTree) : (refresh fs tree).1 =
    ⟨Text.sorted ((unclaimed fs tree).map (·.1.name)),
    Text.sorted ((gone fs tree).map Module.name)⟩ := rfl

theorem modules_refresh (fs : FileSystem) (tree : SourceTree) :
    (refresh fs tree).2.1.modules =
      byName (kept fs tree ++ newModules tree.records.length (unclaimed fs tree)) := rfl

theorem mem_kept : m ∈ kept fs tree ↔
    m ∈ tree.modules ∧ ∃ s ∈ sources fs tree.root, s.1.name = m.name ∧ some s.2 = m.file := by
  simp [kept]

theorem mem_unclaimed : s ∈ unclaimed fs tree ↔
    s ∈ sources fs tree.root ∧ ∀ m ∈ kept fs tree, m.name ≠ s.1.name := by
  simp [unclaimed]

theorem mem_gone : m ∈ gone fs tree ↔ m ∈ tree.modules ∧ m ∉ kept fs tree := by
  simp +contextual [gone, kept]

theorem mem_refresh : m ∈ (refresh fs tree).2.1.modules ↔
    m ∈ kept fs tree ∨ m ∈ newModules tree.records.length (unclaimed fs tree) := by
  rw [modules_refresh, byName, List.mem_mergeSort, List.mem_append]

theorem le_id_of_mem_newModules {next : Nat} {ss : List (Place.Spec × Path)}
    (hm : m ∈ newModules next ss) : next ≤ m.id := by
  have hid := List.mem_map_of_mem (f := Module.id) hm
  rw [map_id_newModules] at hid
  exact (List.mem_range'_1.mp hid).1

theorem mem_refresh_of_mem (ht : tree.Sound) (hm : m ∈ tree.modules) :
    m ∈ (refresh fs tree).2.1.modules ↔ m ∈ kept fs tree := by
  rw [mem_refresh, or_iff_left]
  intro hnew
  have hle := le_id_of_mem_newModules hnew
  have hlt := ht.recorded m hm
  omega

/-! ## Packages -/

theorem Packaged.refresh (hp : tree.Packaged) (hfs : fs.Named) :
    (refresh fs tree).2.1.Packaged := by
  intro m hm
  obtain hm | hm := mem_refresh.mp hm
  · exact hp m (mem_kept.mp hm).1
  · obtain ⟨s, hs, hof⟩ := isOf_of_mem_newModules hm
    refine ⟨s.2, hof.file, ?_⟩
    rw [hof.package, hof.name]
    exact Place.package_of_spec (isSource_of_mem_sources hfs (mem_unclaimed.mp hs).1).spec

theorem Reached.sound (h : tree.Reached) : tree.Sound := by
  induction h with
  | scan hfs h => exact Sound.scan hfs h
  | refresh hfs _ ih => exact ih.refresh hfs
  | readAgain fs m _ ih => exact sameModules_readAgain.sound ih

theorem packaged_empty (root : Path) : Packaged ⟨root, [], []⟩ := by
  intro m hm
  simp at hm

theorem Reached.packaged (h : tree.Reached) : tree.Packaged := by
  induction h with
  | @scan fs hfs root tree notices h =>
    rw [SourceTree.scan] at h
    split at h
    case isFalse => simp at h
    case isTrue =>
      obtain ⟨rfl, -⟩ := Prod.mk.inj (Except.ok.inj h)
      exact (packaged_empty _).refresh hfs
  | refresh hfs _ ih => exact ih.refresh hfs
  | readAgain fs m _ ih =>
    rw [Packaged, sameModules_readAgain.modules]
    exact ih

/-! ## What a refresh comes to -/

theorem exists_source_of_mem (hp : tree.Packaged) (hfs : fs.Named)
    (hm : m ∈ (refresh fs tree).2.1.modules) : ∃ s ∈ sources fs tree.root, IsOf m s := by
  obtain hm | hm := mem_refresh.mp hm
  · obtain ⟨hm, s, hs, hname, hfile⟩ := mem_kept.mp hm
    obtain ⟨p, hp, hpackage⟩ := hp m hm
    obtain rfl : s.2 = p := Option.some.inj (hfile.trans hp)
    refine ⟨s, hs, hname.symm, hp, ?_⟩
    rw [hpackage, ← hname, Place.package_of_spec (isSource_of_mem_sources hfs hs).spec]
  · obtain ⟨s, hs, hof⟩ := isOf_of_mem_newModules hm
    exact ⟨s, (mem_unclaimed.mp hs).1, hof⟩

theorem exists_module_of_mem (hp : tree.Packaged) (hfs : fs.Named) (hs : s ∈ sources fs tree.root) :
    ∃ m ∈ (refresh fs tree).2.1.modules, IsOf m s := by
  by_cases hkept : ∃ m ∈ kept fs tree, m.name = s.1.name
  · obtain ⟨m, hm, hname⟩ := hkept
    have hmem := mem_refresh.mpr (.inl hm)
    obtain ⟨a, ha, hof⟩ := exists_source_of_mem hp hfs hmem
    obtain rfl := eq_of_mem_sources ha hs (hof.name.symm.trans hname)
    exact ⟨m, hmem, hof⟩
  · obtain ⟨m, hm, hof⟩ := exists_newModule tree.records.length
      (mem_unclaimed.mpr ⟨hs, fun m hm hname ↦ hkept ⟨m, hm, hname⟩⟩)
    exact ⟨m, mem_refresh.mpr (.inr hm), hof⟩

def places (tree : SourceTree) : List (String × Option Path × Option String) :=
  tree.modules.map fun m ↦ (m.name, m.file, m.package)

theorem mem_places_refresh (hp : tree.Packaged) (hfs : fs.Named)
    {x : String × Option Path × Option String} :
    x ∈ (refresh fs tree).2.1.places ↔ ∃ s ∈ sources fs tree.root,
      x = (s.1.name, some s.2, s.1.package) := by
  rw [places, List.mem_map]
  constructor
  · rintro ⟨m, hm, rfl⟩
    obtain ⟨s, hs, hof⟩ := exists_source_of_mem hp hfs hm
    exact ⟨s, hs, by rw [hof.name, hof.file, hof.package]⟩
  · rintro ⟨s, hs, rfl⟩
    obtain ⟨m, hm, hof⟩ := exists_module_of_mem hp hfs hs
    exact ⟨m, hm, by rw [hof.name, hof.file, hof.package]⟩

theorem pairwise_byName (ms : List Module) : (byName ms).Pairwise fun a b ↦ a.name ≤ b.name := by
  have h : (byName ms).Pairwise fun a b ↦ decide (a.name ≤ b.name) = true :=
    List.pairwise_mergeSort
      (fun a b c hab hbc ↦ by
        simp only [decide_eq_true_eq] at hab hbc ⊢
        exact String.le_trans hab hbc)
      (fun a b ↦ by
        simp only [Bool.or_eq_true, decide_eq_true_eq]
        exact String.le_total a.name b.name)
      ms
  exact h.imp fun hab ↦ by simpa using hab

theorem nodup_map_fst_places (ht : tree.Sound) : (tree.places.map Prod.fst).Nodup := by
  have hnames : tree.places.map Prod.fst = tree.modules.map Module.name := by
    rw [places, List.map_map]
    rfl
  rw [hnames]
  exact ht.names

/-- What a refresh comes to does not depend on the tree before, but for the root. -/
theorem places_refresh_eq {tree' : SourceTree} (ht : tree.Sound) (ht' : tree'.Sound)
    (hp : tree.Packaged) (hp' : tree'.Packaged) (hfs : fs.Named) (hroot : tree'.root = tree.root) :
    (refresh fs tree).2.1.places = (refresh fs tree').2.1.places := by
  have hmem : ∀ x, x ∈ (refresh fs tree).2.1.places ↔ x ∈ (refresh fs tree').2.1.places := by
    intro x
    rw [mem_places_refresh hp hfs, mem_places_refresh hp' hfs, hroot]
  have hnodup := nodup_map_fst_places (ht.refresh hfs)
  have hnodup' := nodup_map_fst_places (ht'.refresh hfs)
  have hsorted (tree : SourceTree) : (refresh fs tree).2.1.places.Pairwise fun a b ↦ a.1 ≤ b.1 :=
    List.pairwise_map.mpr (pairwise_byName _)
  refine List.Perm.eq_of_pairwise ?_ (hsorted tree) (hsorted tree')
    ((List.perm_ext_iff_of_nodup hnodup.of_map hnodup'.of_map).mpr hmem)
  intro a b ha hb hab hba
  exact List.inj_on_of_nodup_map hnodup ha ((hmem b).mpr hb) (String.le_antisymm hab hba)

/-! ## Scans -/

theorem scan_eq_refresh {root : Path} {fresh : SourceTree} {notices : List Notice}
    (h : scan fs root = .ok (fresh, notices)) : fresh = (refresh fs ⟨fresh.root, [], []⟩).2.1 := by
  rw [scan] at h
  split at h
  case isFalse => simp at h
  case isTrue =>
    obtain ⟨rfl, -⟩ := Prod.mk.inj (Except.ok.inj h)
    rfl

theorem Reached.refusal? (h : tree.Reached) : refusal? tree.root = none := by
  induction h with
  | scan hfs h =>
    obtain ⟨t, hlookup⟩ := exists_lookup_of_isDirectory (scan_eq h).1
    exact refusal?_of_lookup hlookup
  | refresh hfs _ ih => exact ih
  | readAgain fs m _ ih =>
    rw [sameModules_readAgain.root]
    exact ih

/-- The root of a tree can be scanned again as long as a directory stands at its location. -/
theorem exists_scan_root (h : tree.Reached) (hfs : fs.Proper) {l : Location}
    (hroot : tree.root = .ofNames l) (hdir : fs.isDirectoryAt (.present l) = true) :
    ∃ fresh notices, scan fs tree.root = .ok (fresh, notices) ∧ fresh.root = tree.root := by
  have hrefusal := h.refusal?
  rw [hroot] at hrefusal ⊢
  have hwalk : fs.walk linkLimit .root l = .ok (.found (.present l)) := by
    by_cases hl : l = []
    · rw [hl]
      exact walk_nil
    · obtain ⟨t, ht⟩ := exists_mem_of_isDirectoryAt hdir hl
      exact hfs.walk_below (l := []) ht (by simp)
  have hnormal : fs.normalize (.ofNames l) = .ofNames l :=
    normalize_ofNames (refusal?_eq_none_iff.mp hrefusal).1 hwalk
  have hdirectory : fs.isDirectory (.ofNames l) = true := isDirectory_ofNames hrefusal hwalk hdir
  rw [scan, hnormal, if_pos hdirectory]
  exact ⟨_, _, rfl, rfl⟩

/-! ## A second refresh -/

/-- A second refresh changes nothing. -/
theorem refresh_refresh (hp : tree.Packaged) (hfs : fs.Named) :
    (refresh fs (refresh fs tree).2.1).1 = ⟨[], []⟩ := by
  have hkept : ∀ m ∈ (refresh fs tree).2.1.modules, m ∈ kept fs (refresh fs tree).2.1 := by
    intro m hm
    obtain ⟨s, hs, hof⟩ := exists_source_of_mem hp hfs hm
    exact mem_kept.mpr ⟨hm, s, hs, hof.name.symm, hof.file.symm⟩
  have hunclaimed : unclaimed fs (refresh fs tree).2.1 = [] := by
    refine List.eq_nil_iff_forall_not_mem.mpr fun s hs ↦ ?_
    obtain ⟨hs, hfree⟩ := mem_unclaimed.mp hs
    obtain ⟨m, hm, hof⟩ := exists_module_of_mem hp hfs hs
    exact hfree m (hkept m hm) hof.name
  have hgone : gone fs (refresh fs tree).2.1 = [] :=
    List.eq_nil_iff_forall_not_mem.mpr fun m hm ↦ (mem_gone.mp hm).2 (hkept m (mem_gone.mp hm).1)
  rw [changes_refresh, hunclaimed, hgone]
  simp [Text.sorted]

/-! ## What becomes of the modules -/

/-- How a later state of a tree follows on an earlier one. -/
structure FollowsOn (tree' tree : SourceTree) : Prop where
  /-- A module is the same object if its name and its path are the same. -/
  id_eq_iff : ∀ m ∈ tree.modules, ∀ m' ∈ tree'.modules, m'.id = m.id ↔
    m'.name = m.name ∧ m'.file = m.file
  /-- What is the same object is the same throughout. -/
  eq_of_id : ∀ m ∈ tree.modules, ∀ m' ∈ tree'.modules, m'.id = m.id →
    m' = m ∧ tree'.record m' = tree.record m
  /-- All others are objects that never were before. -/
  new : ∀ m' ∈ tree'.modules, m' ∉ tree.modules → tree.records.length ≤ m'.id

/-- The changes tell in order the names of the modules that are new, and of those that are gone. -/
structure Changes.Tells (c : Changes) (tree tree' : SourceTree) : Prop where
  added : c.added.Pairwise (· < ·)
  removed : c.removed.Pairwise (· < ·)
  mem_added : ∀ n, n ∈ c.added ↔ ∃ m ∈ tree'.modules, m.name = n ∧ m ∉ tree.modules
  mem_removed : ∀ n, n ∈ c.removed ↔ ∃ m ∈ tree.modules, m.name = n ∧ m ∉ tree'.modules

theorem eq_of_id_refresh (ht : tree.Sound) {m' : Module} (hm : m ∈ tree.modules)
    (hm' : m' ∈ (refresh fs tree).2.1.modules) (hid : m'.id = m.id) : m' = m := by
  obtain hkept | hnew := mem_refresh.mp hm'
  · exact ht.eq_of_id (mem_kept.mp hkept).1 hm hid
  · have hle := le_id_of_mem_newModules hnew
    have hlt := ht.recorded m hm
    omega

theorem followsOn_refresh (ht : tree.Sound) (hp : tree.Packaged) (hfs : fs.Named) :
    (refresh fs tree).2.1.FollowsOn tree where
  id_eq_iff m hm m' hm' := by
    constructor
    · intro hid
      rw [eq_of_id_refresh ht hm hm' hid]
      exact ⟨rfl, rfl⟩
    · rintro ⟨hname, hfile⟩
      -- What the module of the name and the path was found by keeps the old one.
      obtain ⟨s, hs, hof⟩ := exists_source_of_mem hp hfs hm'
      have hkept : m ∈ kept fs tree :=
        mem_kept.mpr ⟨hm, s, hs, hof.name.symm.trans hname, hof.file.symm.trans hfile⟩
      rw [(ht.refresh hfs).eq_of_name hm' (mem_refresh.mpr (.inl hkept)) hname]
  eq_of_id m hm m' hm' hid := by
    obtain rfl := eq_of_id_refresh ht hm hm' hid
    refine ⟨rfl, ?_⟩
    rw [record, record]
    exact congrArg (Option.getD · ⟨[], 0⟩) (List.getElem?_append_left (ht.recorded m' hm))
  new m hm hnot := by
    obtain hkept | hnew := mem_refresh.mp hm
    · exact absurd (mem_kept.mp hkept).1 hnot
    · exact le_id_of_mem_newModules hnew

theorem pairwise_sorted_of_nodup {ns : List String} (h : ns.Nodup) :
    (Text.sorted ns).Pairwise (· < ·) := by
  have hnodup : (Text.sorted ns).Nodup := (Text.sorted_perm ns).nodup_iff.mpr h
  refine ((Text.pairwise_sorted ns).and hnodup).imp ?_
  rintro a b ⟨hle, hne⟩
  exact String.not_le.mp fun hge ↦ hne (String.le_antisymm hle hge)

theorem tells_refresh (ht : tree.Sound) : (refresh fs tree).1.Tells tree (refresh fs tree).2.1 where
  added := pairwise_sorted_of_nodup ((List.filter_sublist.map _).nodup (nodup_firstOfEachName _))
  removed := pairwise_sorted_of_nodup ((List.filter_sublist.map _).nodup ht.names)
  mem_added n := by
    rw [changes_refresh, Text.mem_sorted, List.mem_map]
    constructor
    · rintro ⟨s, hs, rfl⟩
      obtain ⟨m, hm, hof⟩ := exists_newModule tree.records.length hs
      refine ⟨m, mem_refresh.mpr (.inr hm), hof.name, fun hold ↦ ?_⟩
      have hle := le_id_of_mem_newModules hm
      have hlt := ht.recorded m hold
      omega
    · rintro ⟨m, hm, rfl, hnot⟩
      obtain hkept | hnew := mem_refresh.mp hm
      · exact absurd (mem_kept.mp hkept).1 hnot
      · obtain ⟨s, hs, hof⟩ := isOf_of_mem_newModules hnew
        exact ⟨s, hs, hof.name.symm⟩
  mem_removed n := by
    rw [changes_refresh, Text.mem_sorted, List.mem_map]
    constructor
    · rintro ⟨m, hm, rfl⟩
      obtain ⟨hm, hnot⟩ := mem_gone.mp hm
      exact ⟨m, hm, rfl, mt (mem_refresh_of_mem ht hm).mp hnot⟩
    · rintro ⟨m, hm, rfl, hnot⟩
      exact ⟨m, mem_gone.mpr ⟨hm, mt (mem_refresh_of_mem ht hm).mpr hnot⟩, rfl⟩

/-- **A refresh comes to what a scan of the same root comes to.** It has the names, paths and
packages of any scan with the root of the tree, and there is one as long as the root is a directory
where it was. It keeps what has kept its name and its path, tells what has changed, and has nothing
left to change. -/
theorem refresh_agrees_with_scan (ht : tree.Reached) (hfs : fs.Proper) :
    (∀ root fresh notices, scan fs root = .ok (fresh, notices) → fresh.root = tree.root →
      (refresh fs tree).2.1.places = fresh.places) ∧
    (∀ l, tree.root = .ofNames l → fs.isDirectoryAt (.present l) = true →
      ∃ fresh notices, scan fs tree.root = .ok (fresh, notices) ∧ fresh.root = tree.root) ∧
    (refresh fs tree).2.1.FollowsOn tree ∧ (refresh fs tree).1.Tells tree (refresh fs tree).2.1 ∧
    (refresh fs (refresh fs tree).2.1).1 = ⟨[], []⟩ := by
  have hsound := ht.sound
  have hpackaged := ht.packaged
  refine ⟨?_, ?_, followsOn_refresh hsound hpackaged hfs.named, tells_refresh hsound,
    refresh_refresh hpackaged hfs.named⟩
  · intro root fresh notices hscan hroot
    have hempty := scan_eq_refresh hscan
    rw [hempty]
    exact places_refresh_eq hsound (.empty _) hpackaged (packaged_empty _) hfs.named hroot
  · intro l hroot hdir
    exact exists_scan_root ht hfs hroot hdir

end SourceTree

namespace SourceTree

/-- One source is renamed and the other one stays. -/
theorem pair_refreshed :
    pair.Reached ∧ ∃ fresh notices,
      scan .renamed ⟨true, ["w"]⟩ = .ok (fresh, notices) ∧ fresh.root = pair.root ∧
        (refresh .renamed pair).2.1.places = fresh.places ∧
        (refresh .renamed pair).2.1.modules = [.upper, .other] ∧
        "c" ∈ (refresh .renamed pair).1.added ∧ "b" ∈ (refresh .renamed pair).1.removed := by
  have hreached : pair.Reached := .scan (FileSystem.named_pair 1) FileSystem.scan_pair
  obtain ⟨hplaces, hagain, -, htells, -⟩ :=
    refresh_agrees_with_scan hreached FileSystem.proper_renamed
  obtain ⟨fresh, notices, hfresh, hroot⟩ := hagain ["w"] rfl (by decide)
  have hmodules := FileSystem.refresh_renamed.2
  refine ⟨hreached, fresh, notices, hfresh, hroot, hplaces _ _ _ hfresh hroot, hmodules, ?_, ?_⟩
  · exact (htells.mem_added "c").mpr ⟨.other, by simp [hmodules], rfl, by decide⟩
  · exact (htells.mem_removed "b").mpr ⟨.lower, by decide, rfl, by rw [hmodules]; decide⟩

end SourceTree

end ModuleReload
