import ModuleReload.OwnedRoots
import ModuleReload.Proofs.FileSystem.Normal

/-!
# Roots from a search path

The roots of a search path are the explicit ones, followed by the entries that no excluded directory
leaves out, all of them normalized, each once and in the order of their first appearance
(`paths_ofSearchPath`).

Directories of installed packages are to stay owned below an excluded directory. Whether a path lies
in one is asked of the whole path, and not of the part of it below the excluded directory (`isKept`,
beside `isAdmitted`). So a directory that is excluded, but lies among installed packages itself,
leaves out nothing but itself. The two rules give the same roots if nothing of the search path lies
below such a directory, or what does is explicit as well (`paths_ofSearchPath_agree_iff`).
-/

namespace ModuleReload

/-! ## First occurrences -/

theorem eraseDups_append_filter_eq_iff {α : Type} [BEq α] [LawfulBEq α] {as bs : List α}
    {p : α → Bool} :
    (as ++ bs).eraseDups = (as ++ bs.filter p).eraseDups ↔ ∀ b ∈ bs, p b = false → b ∈ as := by
  constructor
  · intro h b hb hp
    have hmem : b ∈ (as ++ bs.filter p).eraseDups := by
      rw [← h, List.mem_eraseDups]
      exact List.mem_append_right as hb
    obtain hmem | hmem := List.mem_append.mp (List.mem_eraseDups.mp hmem)
    · exact hmem
    · exact absurd (List.mem_filter.mp hmem).2 (by simp [hp])
  · intro h
    have hsame : (bs.filter p).removeAll as = bs.removeAll as := by
      rw [List.removeAll, List.removeAll, List.filter_filter]
      refine List.filter_congr fun b hb ↦ ?_
      cases hp : p b with
      | true => rw [Bool.and_true]
      | false => simp [h b hb hp]
    rw [List.eraseDups_append, List.eraseDups_append, hsame]

theorem Path.isUnder_refl (p : Path) : p.isUnder p = true :=
  List.isPrefixOf_iff_prefix.mpr (List.prefix_refl _)

namespace OwnedRoots

open FileSystem ModuleReload.Path

variable {fs : FileSystem} {outers : List Path} {outer place : Path}

/-! ## Building -/

theorem paths_push (fs : FileSystem) (roots : OwnedRoots) (p : Path) :
    (push fs roots p).paths =
      if fs.normalize p ∈ roots.paths then roots.paths else roots.paths ++ [fs.normalize p] := by
  simp only [push, List.contains_iff_mem]
  split <;> rfl

theorem paths_ofList (fs : FileSystem) (ps : List Path) :
    (ofList fs ps).paths = (ps.map fs.normalize).eraseDups := by
  induction ps using List.reverseRecOn with
  | nil => rfl
  | append_singleton ps p ih =>
    rw [ofList, List.foldl_append, ← ofList, List.foldl_cons, List.foldl_nil, paths_push, ih,
      List.map_append, List.eraseDups_append, List.map_singleton]
    by_cases h : fs.normalize p ∈ ps.map fs.normalize
    · have hnone : [fs.normalize p].removeAll (ps.map fs.normalize) = [] := by
        simpa [List.removeAll] using h
      rw [if_pos (List.mem_eraseDups.mpr h), hnone, List.eraseDups_nil, List.append_nil]
    · have hone : [fs.normalize p].removeAll (ps.map fs.normalize) = [fs.normalize p] := by
        simpa [List.removeAll] using h
      rw [if_neg (mt List.mem_eraseDups.mp h), hone]
      rfl

/-! ## Rules for what is excluded -/

/-- Whether a place lies below `outer` by names among which is the directory of installed
packages. -/
def isInstalledBelow (outer place : Path) : Bool :=
  place.isUnder outer && (place.components.drop outer.components.length).contains
    (.name installDirectory)

/-- Whether none of the excluded places leaves a place out: it does not lie under them, or is
installed below. -/
def isAdmitted (outers : List Path) (place : Path) : Bool :=
  outers.all fun outer ↦ !place.isUnder outer || isInstalledBelow outer place

/-- The same for a place that counts as installed wherever on its way the directory of installed
packages is. -/
def isKept (outers : List Path) (place : Path) : Bool :=
  outers.all fun outer ↦
    !place.isUnder outer ||
    (decide (place ≠ outer) && place.components.contains (.name installDirectory))

theorem components_of_isUnder (h : place.isUnder outer = true) :
    place.components = outer.components ++ place.components.drop outer.components.length := by
  obtain ⟨rest, hrest⟩ := List.isPrefixOf_iff_prefix.mp h
  rw [← hrest, List.drop_left]

theorem isExcluded_eq (fs : FileSystem) (excluded : List Path) (e : Path) :
    isExcluded fs excluded e = !isKept (excluded.map fs.normalize) (fs.normalize e) := by
  rw [isExcluded, isKept, List.all_map, List.not_all_eq_any_not]
  congr 1
  funext p
  by_cases hsame : fs.normalize e = fs.normalize p
  · simp [hsame, isUnder_refl]
  · simp [hsame]

/-- What is installed below an excluded place is not that place, and is kept. -/
theorem isKept_of_isAdmitted (h : isAdmitted outers place = true) : isKept outers place = true := by
  rw [isAdmitted, List.all_eq_true] at h
  rw [isKept, List.all_eq_true]
  intro outer houter
  have hrule := h outer houter
  cases hunder : place.isUnder outer with
  | false => rfl
  | true =>
    have hbelow :
        Component.name installDirectory ∈ place.components.drop outer.components.length := by
      simpa [hunder, isInstalledBelow] using hrule
    have hne : place ≠ outer := by
      rintro rfl
      simp at hbelow
    simpa [hne] using List.mem_of_mem_drop hbelow

/-- A place is kept without being admitted because of an excluded place that lies among installed
packages itself. -/
theorem isAdmitted_eq_false_iff (hkept : isKept outers place = true) :
    isAdmitted outers place = false ↔ ∃ outer ∈ outers, place.isUnder outer = true ∧
      .name installDirectory ∈ outer.components ∧ isInstalledBelow outer place = false := by
  rw [isKept, List.all_eq_true] at hkept
  rw [isAdmitted, List.all_eq_false]
  refine exists_congr fun outer ↦ and_congr_right fun houter ↦ ?_
  have hrule := hkept outer houter
  cases hunder : place.isUnder outer with
  | false => simp
  | true =>
    rw [hunder] at hrule
    have hmem : Component.name installDirectory ∈ place.components := by
      simpa using (Bool.and_eq_true_iff.mp hrule).2
    rw [components_of_isUnder hunder, List.mem_append] at hmem
    constructor
    · intro hleft
      have hbelow : isInstalledBelow outer place = false := by simpa using hleft
      refine ⟨rfl, hmem.resolve_right fun h ↦ ?_, hbelow⟩
      simp [isInstalledBelow, hunder, h] at hbelow
    · rintro ⟨-, -, hbelow⟩
      simp [hbelow]

/-! ## Roots -/

theorem paths_ofSearchPath (fs : FileSystem) (explicit searchPath excluded : List Path) :
    (ofSearchPath fs explicit searchPath excluded).1.paths =
      (explicit.map fs.normalize ++
        (searchPath.map fs.normalize).filter (isKept (excluded.map fs.normalize))).eraseDups := by
  have hkept : (searchPath.filter (!isExcluded fs excluded ·)).map fs.normalize =
      (searchPath.map fs.normalize).filter (isKept (excluded.map fs.normalize)) := by
    rw [List.filter_map]
    congr 2
    funext e
    rw [isExcluded_eq, Bool.not_not, Function.comp_apply]
  have hlist : (ofSearchPath fs explicit searchPath excluded).1 =
      ofList fs (explicit ++ searchPath.filter (!isExcluded fs excluded ·)) := by
    rw [ofSearchPath, ofList, ofList, List.foldl_append]
  rw [hlist, paths_ofList, List.map_append, hkept]

/-- **The roots of a search path** are the explicit ones and the entries that are kept, normalized,
each where it first appears. They are the explicit ones and the entries that are admitted if and
only if every entry is explicit, too, that is kept and lies under an excluded directory which is
itself a directory of installed packages or in one, but in no such directory below that. -/
theorem paths_ofSearchPath_agree_iff (fs : FileSystem) (explicit searchPath excluded : List Path) :
    let roots := (ofSearchPath fs explicit searchPath excluded).1.paths
    let listed := explicit.map fs.normalize
    let places := searchPath.map fs.normalize
    let outers := excluded.map fs.normalize
    roots = (listed ++ places.filter (isKept outers)).eraseDups ∧
      (roots = (listed ++ places.filter (isAdmitted outers)).eraseDups ↔
        ∀ place ∈ places, isKept outers place = true →
          (∃ outer ∈ outers, place.isUnder outer = true ∧
            .name installDirectory ∈ outer.components ∧
            isInstalledBelow outer place = false) → place ∈ listed) := by
  intro roots listed places outers
  have hroots : roots = (listed ++ places.filter (isKept outers)).eraseDups :=
    paths_ofSearchPath fs explicit searchPath excluded
  have hfilter :
      places.filter (isAdmitted outers) =
        (places.filter (isKept outers)).filter (isAdmitted outers) := by
    rw [List.filter_filter]
    refine List.filter_congr fun place _ ↦ ?_
    cases hadmitted : isAdmitted outers place with
    | false => rw [Bool.false_and]
    | true => rw [isKept_of_isAdmitted hadmitted, Bool.and_self]
  refine ⟨hroots, ?_⟩
  rw [hroots, hfilter, eraseDups_append_filter_eq_iff, List.forall_mem_filter]
  refine forall₂_congr fun place _ ↦ forall_congr' fun hkept ↦ ?_
  rw [isAdmitted_eq_false_iff hkept]

/-! ## An excluded directory among installed packages -/

/-- An installed package. -/
def installed : Path :=
  .ofNames ["nx", "site-packages", "a"]

/-- A directory in it. -/
def inside : Path :=
  .ofNames ["nx", "site-packages", "a", "b"]

theorem normalize_installed : FileSystem.empty.normalize installed = installed := by
  decide

theorem normalize_inside : FileSystem.empty.normalize inside = inside := by
  decide

/-- The package is excluded, and the directory in it is a root all the same. -/
theorem paths_ofSearchPath_inside :
    (ofSearchPath .empty [] [inside] [installed]).1.paths = [inside] ∧
      (ofSearchPath .empty [] [inside] [installed]).1.paths ≠
        ([inside].filter (isAdmitted [installed])).eraseDups := by
  have houters : [installed].map FileSystem.empty.normalize = [installed] :=
    congrArg (· :: []) normalize_installed
  have hplaces : [inside].map FileSystem.empty.normalize = [inside] :=
    congrArg (· :: []) normalize_inside
  have hagree := paths_ofSearchPath_agree_iff .empty [] [inside] [installed]
  rw [houters, hplaces] at hagree
  obtain ⟨hroots, hagree⟩ := hagree
  refine ⟨hroots.trans (by decide), fun hsame ↦ ?_⟩
  exact absurd (hagree.mp hsame inside (by decide) (by decide) ⟨installed, by decide⟩) (by decide)

end OwnedRoots

end ModuleReload
