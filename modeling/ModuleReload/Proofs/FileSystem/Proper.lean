import Mathlib.Data.List.Induction
import Mathlib.Data.List.Nodup
import Mathlib.Tactic.ByContra
import ModuleReload.FileSystem.Normal
import ModuleReload.Proofs.FileSystem.Spelling

/-!
# Proper file systems

A file system is a table, and a table can hold what no directory holds: a file below a file, or a
name that is none. A file system without such entries is `Proper`, and in it a path goes where its
names say: behind the path of a directory, the names from there to an entry lead to that entry
(`walk_below`, `walk_entry`).
-/

namespace ModuleReload.FileSystem

open ModuleReload.Path

/-- What a directory may hold something by. -/
structure IsName (n : String) : Prop where
  isDots : isDots n = false
  null : '\x00' ∉ n.toList
  length : n.length ≤ nameLimit

/-- Every entry stands in a directory, by a name of its own. -/
structure Proper (fs : FileSystem) : Prop where
  names : ∀ e ∈ fs.entries, ∀ n ∈ e.1, IsName n
  /-- The table may say of the root when it was modified, but not that it is something else. -/
  root : ∀ e, ([], e) ∈ fs.entries → ∃ t, e = .directory t
  outer : ∀ e ∈ fs.entries, e.1.dropLast ≠ [] → ∃ t, (e.1.dropLast, .directory t) ∈ fs.entries
  nodup : (fs.entries.map Prod.fst).Nodup

variable {fs : FileSystem}

namespace Proper

theorem ne_nil (hfs : fs.Proper) {l : Location} {e : Entry} (he : (l, e) ∈ fs.entries)
    (hdirectory : ∀ t, e ≠ .directory t) : l ≠ [] := by
  rintro rfl
  obtain ⟨t, ht⟩ := hfs.root e he
  exact hdirectory t ht

theorem entry?_eq (hfs : fs.Proper) {l : Location} {e : Entry} (he : (l, e) ∈ fs.entries)
    (hl : l ≠ []) : fs.entry? l = some e := by
  obtain ⟨before, after, heq⟩ := List.append_of_mem he
  have hnodup := hfs.nodup
  rw [heq, List.map_append, List.nodup_append] at hnodup
  have hbefore : ∀ p ∈ before, l != p.1 := by
    intro p hp
    have := hnodup.2.2 p.1 (List.mem_map_of_mem hp) l (by simp)
    simpa using this.symm
  rw [entry?_of_ne_nil hl]
  exact List.lookup_eq_some_iff.mpr ⟨before, after, heq, hbefore⟩

theorem isDirectoryAt_of_append (hfs : fs.Proper) {l names : Location} {e : Entry}
    (he : (l ++ names, e) ∈ fs.entries) (hnames : names ≠ []) :
    fs.isDirectoryAt (.present l) = true := by
  induction names using List.reverseRecOn generalizing e with
  | nil => exact absurd rfl hnames
  | append_singleton names n ih =>
    have hlast : (l ++ (names ++ [n])).dropLast = l ++ names := by
      rw [← List.append_assoc, List.dropLast_concat]
    by_cases hroot : l ++ names = []
    · obtain ⟨rfl, rfl⟩ := List.append_eq_nil_iff.mp hroot
      rfl
    · obtain ⟨t, ht⟩ := hfs.outer _ he (hlast ▸ hroot)
      rw [hlast] at ht
      by_cases hmore : names = []
      · subst hmore
        rw [List.append_nil] at ht hroot
        simp only [isDirectoryAt, entryAt?, hfs.entry?_eq ht hroot]
      · exact ih ht hmore

theorem exists_entry?_of_append (hfs : fs.Proper) {l names : Location} {e : Entry}
    (he : (l ++ names, e) ∈ fs.entries) (hlink : ∀ target, e ≠ .link target) :
    ∃ e', fs.entry? l = some e' ∧ ∀ target, e' ≠ .link target := by
  cases names with
  | nil =>
    by_cases hl : l = []
    · subst hl
      exact ⟨_, rfl, by simp⟩
    · exact ⟨e, hfs.entry?_eq (by simpa using he) hl, hlink⟩
  | cons n names =>
    have hdirectory := hfs.isDirectoryAt_of_append he (by simp)
    rw [isDirectoryAt] at hdirectory
    split at hdirectory
    · next t ht => exact ⟨_, ht, by simp⟩
    · simp at hdirectory

theorem leads_below (hfs : fs.Proper) {links : Nat} {l names : Location} {e : Entry}
    (he : (l ++ names, e) ∈ fs.entries) (hlink : ∀ target, e ≠ .link target) :
    fs.Leads links (.present l) names (.found (.present (l ++ names))) := by
  induction names generalizing l with
  | nil =>
    rw [List.append_nil]
    exact .here
  | cons n names ih =>
    have he' : (l ++ [n] ++ names, e) ∈ fs.entries := by simpa using he
    obtain ⟨e', hentry, hlink'⟩ := hfs.exists_entry?_of_append he' hlink
    have hn := hfs.names _ he n (by simp)
    have hrest := ih he'
    rw [List.append_assoc, List.singleton_append] at hrest
    exact .name (hfs.isDirectoryAt_of_append he (by simp)) hn.isDots hn.length hentry hlink' hrest

theorem walk_below (hfs : fs.Proper) {links : Nat} {l names : Location} {e : Entry}
    (he : (l ++ names, e) ∈ fs.entries) (hlink : ∀ target, e ≠ .link target) :
    fs.walk links (.present l) names = .ok (.found (.present (l ++ names))) :=
  (hfs.leads_below he hlink).walk_eq

end Proper

theorem refusal?_eq_none_iff {p : Path} :
    refusal? p = none ↔
      containsNull p = false ∧ p.isEmpty = false ∧ p.bytes.length < pathLimit := by
  rw [refusal?]
  split
  case isTrue hnull => simp [hnull]
  case isFalse hnull =>
    split
    case isTrue hempty => simp [hempty]
    case isFalse hempty =>
      split
      case isTrue hlong => simp [Nat.not_lt.mpr hlong]
      case isFalse hlong => simpa [hnull, hempty] using hlong

theorem refusal?_of_lookup {p : Path} {e : Entry} (h : fs.lookup p = .ok e) :
    refusal? p = none := by
  rw [lookup, locate, goal] at h
  cases hrefusal : refusal? p with
  | none => rfl
  | some cause => simp [hrefusal] at h

theorem lookup_of_walk {p : Path} {here : Position} {e : Entry} (hrefusal : refusal? p = none)
    (hwalk : fs.walk linkLimit (fs.origin p) p.pieces = .ok (.found here))
    (hentry : fs.entryAt? here = some e) : fs.lookup p = .ok e := by
  simp only [lookup, locate, goal, hrefusal, hwalk, hentry]

/-- What a path leads to is found without some of its empty pieces and dots as well. -/
theorem lookup_thinner {rooted : Bool} {ps qs : List String} {e : Entry} (h : Thinner ps qs)
    (hqs : rooted = true ∨ qs ≠ []) (hp : fs.lookup ⟨rooted, ps⟩ = .ok e) :
    fs.lookup ⟨rooted, qs⟩ = .ok e := by
  obtain ⟨hnull, -, hlength⟩ := refusal?_eq_none_iff.mp (refusal?_of_lookup hp)
  obtain ⟨goal, hwalk, hentry⟩ := walk_of_lookup hp
  refine lookup_of_walk (refusal?_eq_none_iff.mpr ⟨?_, ?_, ?_⟩) (fs.walk_thinner hwalk h) hentry
  · rw [containsNull, List.any_eq_false] at hnull ⊢
    exact fun q hq ↦ hnull q (h.subset hq)
  · rcases hqs with rfl | hqs
    · rfl
    · simp [isEmpty, hqs]
  · have hle := h.length_paste_le
    rw [bytes] at hlength ⊢
    split at hlength
    case isTrue hrooted =>
      rw [if_pos hrooted]
      simp only [String.length_append] at hlength ⊢
      omega
    case isFalse hrooted =>
      rw [if_neg hrooted]
      exact Nat.lt_of_le_of_lt hle hlength

theorem exists_lookup_of_isDirectory {p : Path} (h : fs.isDirectory p = true) :
    ∃ t, fs.lookup p = .ok (.directory t) := by
  rw [isDirectory] at h
  split at h
  · next t ht => exact ⟨t, ht⟩
  · simp at h

/-! ## The paths of locations -/

section Absolute

variable {l : Location}

/-- A location that is reached by its own names is what its path stands for. -/
theorem normalize_ofNames (hnull : containsNull (.ofNames l) = false)
    (hwalk : fs.walk linkLimit (.present []) l = .ok (.found (.present l))) :
    fs.normalize (.ofNames l) = .ofNames l := by
  have hempty : (ofNames l).isEmpty = false := rfl
  have horigin : fs.origin (.ofNames l) = .present [] := rfl
  have hpieces : (ofNames l).pieces = l := rfl
  have hplace : fs.place? (.ofNames l) = some l := by
    rw [place?, hnull, hempty, horigin, hpieces]
    simp only [hwalk]
    rfl
  rw [normalize, hplace]

theorem isDirectory_ofNames (hrefusal : refusal? (.ofNames l) = none)
    (hwalk : fs.walk linkLimit (.present []) l = .ok (.found (.present l)))
    (hdirectory : fs.isDirectoryAt (.present l) = true) : fs.isDirectory (.ofNames l) = true := by
  have horigin : fs.origin (.ofNames l) = .present [] := rfl
  have hpieces : (ofNames l).pieces = l := rfl
  rw [isDirectory, lookup, locate, goal, hrefusal, horigin, hpieces]
  simp only [hwalk]
  rw [isDirectoryAt] at hdirectory
  split at hdirectory
  · next h => simp only [h]
  · simp at hdirectory

end Absolute

/-! ## Slots -/

/-- The place of the last name of a path: a directory that the path leads to without it, the name
itself, and slashes behind it. -/
theorem exists_of_slot? {p : Path} {s : Slot} (h : fs.slot? p = some s) :
    ∃ front name slashes l, p.pieces = front ++ name :: slashes ∧ (∀ q ∈ slashes, q = "") ∧
      IsName name ∧
      fs.walk linkLimit (fs.origin p) front = .ok (.found (.present l)) ∧
      fs.isDirectoryAt (.present l) = true ∧ s.location = l ++ [name] ∧ refusal? p = none := by
  rw [slot?] at h
  split at h
  case h_2 => simp at h
  case h_1 name front hrefusal hpieces =>
    have hsplit :
        p.pieces = front.reverse ++ name :: (p.pieces.reverse.takeWhile (· = "")).reverse := by
      have := List.takeWhile_append_dropWhile (p := (· = "")) (l := p.pieces.reverse)
      rw [hpieces] at this
      have := congrArg List.reverse this
      simpa using this.symm
    have hslashes : ∀ q ∈ (p.pieces.reverse.takeWhile (· = "")).reverse, q = "" := by
      intro q hq
      simpa using List.all_eq_true.mp (List.all_takeWhile (p := (· = ""))) q
        (List.mem_reverse.mp hq)
    generalize (p.pieces.reverse.takeWhile (· = "")).reverse = slashes at hsplit hslashes
    have hempty : name ≠ "" := by
      have := List.head?_dropWhile_not (· = "") p.pieces.reverse
      simpa [hpieces] using this
    split at h
    case isTrue => simp at h
    case isFalse hname =>
      simp only [not_or, Nat.not_lt] at hname
      split at h
      case h_2 => simp at h
      case h_1 l hfront =>
        split at h
        case isFalse => simp at h
        case isTrue hl =>
          obtain rfl := Option.some.inj h
          have hnull : '\x00' ∉ name.toList := by
            have hall := (refusal?_eq_none_iff.mp hrefusal).1
            rw [containsNull, List.any_eq_false] at hall
            simpa using hall name (by simp [hsplit])
          refine ⟨front.reverse, name, slashes, l, hsplit, hslashes, ⟨?_, hnull, hname.2.2⟩, hfront,
            hl, rfl, hrefusal⟩
          simp [Path.isDots, hempty, hname.1, hname.2.1]

end ModuleReload.FileSystem
