import ModuleReload.Proofs.FileSystem.Proper
import ModuleReload.Proofs.Path.Bytes
import ModuleReload.Proofs.Path.Parts
import ModuleReload.Proofs.Tree.Dropped

/-!
# What a scan finds

A scan puts the names of the files below a root behind the path of the root, and so gives each
source a path that nothing has been asked about yet. In a proper file system such a path leads to
its file: it is refused only if it is too long (`isFile_source_iff`), and its normal form lies below
that of the root (`isUnder_normalize_source`). What a scan knows of a module is `Scanned`.

A path may be too long without the file being out of reach otherwise: a directory that is moved
takes along what it holds, however deep.
-/

namespace ModuleReload

theorem FileSystem.Proper.named {fs : FileSystem} (hfs : fs.Proper) : fs.Named := by
  intro e he hmem
  exact absurd (hfs.names e he _ hmem).isDots (by decide)

namespace SourceTree

open FileSystem ModuleReload.Path

variable {fs : FileSystem} {root : Path} {l names : Location} {e : Entry}

/-! ## Paths below a root -/

theorem stem?_ne (p : Path) : p.stem? ≠ some "" := by
  intro h
  obtain ⟨name, hname, hstem⟩ := Option.map_eq_some_iff.mp h
  rw [stemOf.eq_def] at hstem
  split at hstem
  · exact fileName?_ne p (hstem ▸ hname)
  · next hne => exact hne hstem

theorem paste_ne {ps : List String} (hne : ps ≠ []) (hps : "" ∉ ps) (sep : Char) :
    Text.paste sep ps ≠ "" := by
  intro h
  have hnil : Text.joinPieces sep (ps.map String.toList) = [] := by
    have := congrArg String.toList h
    rwa [Text.paste, String.toList_ofList] at this
  cases ps with
  | nil => exact hne rfl
  | cons p ps =>
    cases ps with
    | nil =>
      have hp : p = "" := String.toList_eq_nil_iff.mp hnil
      exact hps (hp ▸ List.mem_cons_self)
    | cons q ps => simp [Text.joinPieces] at hnil

theorem packagesAround_ne (p : Path) : "" ∉ Place.packagesAround fs p := by
  rw [Place.packagesAround]
  split
  · simp
  · next dir _ =>
    intro hmem
    rw [List.mem_reverse, List.mem_filterMap] at hmem
    obtain ⟨name, hname, heq⟩ := hmem
    obtain ⟨dir', -, hdir'⟩ := List.mem_map.mp (List.takeWhile_subset _ hname)
    exact fileName?_ne dir' (Text.bind_decode?_eq_some_iff.mp (hdir'.trans heq))

theorem name_ne_of_spec {p : Path} {spec : Place.Spec} (h : Place.Spec.of? fs p = some spec) :
    spec.name ≠ "" := by
  obtain ⟨stem, hstem, ⟨-, hpackages, rfl⟩ | ⟨-, rfl⟩⟩ := Place.Spec.of?_cases h
  · exact paste_ne hpackages (packagesAround_ne p) '.'
  · have hstem' : stem ≠ "" := by
      rintro rfl
      exact stem?_ne p (Text.bind_decode?_eq_some_iff.mp hstem)
    refine paste_ne (by simp) ?_ '.'
    simpa [packagesAround_ne] using hstem'.symm

/-! ## The modules of a scan -/

theorem sourcesFrom_of_pairwise {found : List Location} (hplace : placeOf? fs root = some l)
    (hfound : (fs.entries.filterMap (walkedTo? l)).filter (isRead root) = found)
    (hsorted : found.Pairwise fun a b ↦ walksBefore a b = true) :
    sourcesFrom fs root = found.filterMap fun names ↦
      if (⟨root.rooted, root.pieces ++ names⟩ : Path).extension? = some Place.sourceExtension then
        (Place.Spec.of? fs ⟨root.rooted, root.pieces ++ names⟩).map
          fun spec ↦ (spec, ⟨root.rooted, root.pieces ++ names⟩)
      else none := by
  rw [sourcesFrom, hplace]
  simp only [hfound, List.mergeSort_of_pairwise hsorted]

theorem exists_getElem?_of_mem_newModules {next : Nat} {ss : List (Place.Spec × Path)}
    {m : Module} (hm : m ∈ newModules next ss) :
    ∃ i s, ss[i]? = some s ∧ m = ⟨next + i, s.1.name, some s.2, s.1.package⟩ := by
  induction ss generalizing next with
  | nil => simp [newModules] at hm
  | cons s ss ih =>
    rw [newModules] at hm
    rcases List.mem_cons.mp hm with rfl | hm
    · exact ⟨0, s, rfl, rfl⟩
    · obtain ⟨i, a, ha, rfl⟩ := ih hm
      exact ⟨i + 1, a, ha, by rw [Nat.add_right_comm, Nat.add_assoc]⟩

theorem scan_of_isDirectory {sources : List (Place.Spec × Path)} {modules : List Module}
    {records : List SourceRecord} {added : List String} (hnormalize : fs.normalize root = root)
    (hdirectory : fs.isDirectory root = true)
    (hsources : firstOfEachName (sourcesFrom fs root) = sources)
    (hmodules : byName (newModules 0 sources) = modules)
    (hrecords : sources.map (firstRecord fs ·.2) = records)
    (hadded : Text.sorted (sources.map (·.1.name)) = added) :
    scan fs root =
      .ok (⟨root, modules, records⟩, [scanned ⟨root, modules, records⟩ ⟨added, []⟩]) := by
  have hfresh : sources.filter (fun s ↦ !([] : List Module).any (·.name = s.1.name)) = sources :=
    List.filter_eq_self.mpr fun s _ ↦ rfl
  have hremoved : Text.sorted [] = [] := List.mergeSort_nil
  simp only [scan, hnormalize, hdirectory, if_true, refresh, hsources, List.filter_nil, hfresh,
    List.map_nil, hremoved, List.nil_append, List.length_nil, hmodules, hrecords, hadded]

theorem scan_eq {tree : SourceTree} {notices : List Notice}
    (h : scan fs root = .ok (tree, notices)) :
    fs.isDirectory tree.root = true ∧
      tree.modules = byName (newModules 0 (firstOfEachName (sourcesFrom fs tree.root))) ∧
      tree.records = (firstOfEachName (sourcesFrom fs tree.root)).map (firstRecord fs ·.2) := by
  rw [scan] at h
  split at h
  case isFalse => simp at h
  case isTrue hdir =>
    obtain ⟨rfl, -⟩ := Prod.mk.inj (Except.ok.inj h)
    have hfresh : (firstOfEachName (sourcesFrom fs (fs.normalize root))).filter
        (fun s ↦ !([] : List Module).any (·.name = s.1.name)) =
          firstOfEachName (sourcesFrom fs (fs.normalize root)) :=
      List.filter_eq_self.mpr fun s _ ↦ rfl
    exact ⟨hdir, congrArg (fun ss ↦ byName (newModules 0 ss)) hfresh,
      congrArg (List.map fun s : Place.Spec × Path ↦ firstRecord fs s.2) hfresh⟩

/-- What a scan of a proper file system knows of a module. -/
structure Scanned (fs : FileSystem) (tree : SourceTree) (m : Module) (p : Path) : Prop where
  file : m.file = some p
  name : m.name ≠ ""
  extension : p.extension? = some Place.sourceExtension
  record : tree.record m = firstRecord fs p
  isFile : fs.isFile p = true ↔ p.bytes.length < pathLimit
  isUnder : (fs.normalize p).isUnder (fs.normalize tree.root) = true

end SourceTree

/-! ## A module that imports another -/

/-- A directory with two sources. The first imports the second, which is empty and was last modified
at the given time. -/
def FileSystem.pair (t : FileSystem.Instant) : FileSystem where
  entries := [(["w"], .directory 0), (["w", "a.py"], .file (.text "import b\n") 0),
    (["w", "b.py"], .file (.text "") t)]
  workingDirectory := .root

/-- The directory when the second source has been renamed. -/
def FileSystem.renamed : FileSystem where
  entries := [(["w"], .directory 0), (["w", "a.py"], .file (.text "import b\n") 0),
    (["w", "c.py"], .file (.text "") 1)]
  workingDirectory := .root

/-- The module that imports the other one. -/
def Module.upper : Module := ⟨0, "a", some ⟨true, ["w", "a.py"]⟩, none⟩

def Module.lower : Module := ⟨1, "b", some ⟨true, ["w", "b.py"]⟩, none⟩

def Module.other : Module := ⟨2, "c", some ⟨true, ["w", "c.py"]⟩, none⟩

/-- The tree below the directory. -/
def SourceTree.pair : SourceTree := ⟨⟨true, ["w"]⟩, [.upper, .lower], [⟨[], 0⟩, ⟨[], 0⟩]⟩

namespace FileSystem

open SourceTree ModuleReload.Path

theorem named_pair (t : Instant) : (FileSystem.pair t).Named := by
  simp [Named, FileSystem.pair]

theorem scan_pair :
    scan (.pair 1) ⟨true, ["w"]⟩ = .ok (.pair, [scanned .pair ⟨["a", "b"], []⟩]) := by
  have hfound : ((FileSystem.pair 1).entries.filterMap (walkedTo? ["w"])).filter
      (isRead ⟨true, ["w"]⟩) = [["a.py"], ["b.py"]] := by decide
  have hsources : firstOfEachName (sourcesFrom (.pair 1) ⟨true, ["w"]⟩) =
      [(⟨"a", none, false⟩, ⟨true, ["w", "a.py"]⟩),
        (⟨"b", none, false⟩, ⟨true, ["w", "b.py"]⟩)] := by
    rw [sourcesFrom_of_pairwise (by decide) hfound (by decide)]
    decide +kernel
  exact scan_of_isDirectory (by decide) (by decide) hsources
    (List.mergeSort_of_pairwise (by decide)) (by decide +kernel)
    (List.mergeSort_of_pairwise (by decide))

theorem proper_renamed : renamed.Proper where
  names e he n hn := by
    have hnames : ∀ e ∈ renamed.entries, ∀ n ∈ e.1,
        isDots n = false ∧ '\x00' ∉ n.toList ∧ n.length ≤ nameLimit := by decide
    obtain ⟨hdots, hnull, hlength⟩ := hnames e he n hn
    exact ⟨hdots, hnull, hlength⟩
  root e he := by simp [renamed] at he
  outer e he hne := by
    simp only [renamed, List.mem_cons, List.not_mem_nil, or_false] at he
    obtain rfl | rfl | rfl := he
    · exact absurd rfl hne
    · exact ⟨0, List.mem_cons_self⟩
    · exact ⟨0, List.mem_cons_self⟩
  nodup := by decide

theorem refresh_renamed :
    (refresh renamed .pair).1 = ⟨["c"], ["b"]⟩ ∧
      (refresh renamed .pair).2.1.modules = [.upper, .other] := by
  have hfound : (renamed.entries.filterMap (walkedTo? ["w"])).filter (isRead ⟨true, ["w"]⟩) =
      [["a.py"], ["c.py"]] := by decide
  have hsources : sourcesFrom renamed ⟨true, ["w"]⟩ =
      [(⟨"a", none, false⟩, ⟨true, ["w", "a.py"]⟩),
        (⟨"c", none, false⟩, ⟨true, ["w", "c.py"]⟩)] := by
    rw [sourcesFrom_of_pairwise (by decide) hfound (by decide)]
    decide +kernel
  have hroot : SourceTree.pair.root = ⟨true, ["w"]⟩ := rfl
  simp only [refresh, hroot, hsources]
  refine ⟨?_, List.mergeSort_of_pairwise (by decide)⟩
  exact congrArg₂ Changes.mk (List.mergeSort_singleton _) (List.mergeSort_singleton _)

end FileSystem

end ModuleReload
