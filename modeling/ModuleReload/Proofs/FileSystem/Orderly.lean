import Mathlib.Data.List.Basic
import ModuleReload.FileSystem.Edit
import ModuleReload.Proofs.FileSystem.Proper

/-!
# Changes to the table

A proper file system stays proper if an entry is put in its place, if all below a location is
erased, and if all below one is moved to another where nothing is. Besides the table two more things
are kept, since later changes depend on them (`Orderly`): the texts of links hold no null character,
so no name that a link leads to does, and one works in a directory, so a walk that begins there
comes to what is there.
-/

namespace ModuleReload.FileSystem

open ModuleReload.Path

/-! ## Places -/

/-- The location of a position, or of the innermost directory that has not been removed around
it. -/
def Position.base : Position → Location
  | .present l => l
  | .removed p => p.base

/-- A proper file system in which one works in a directory, and links hold no null character. -/
structure Orderly (fs : FileSystem) : Prop extends Proper fs where
  targets : ∀ l target, (l, .link target) ∈ fs.entries → containsNull target = false
  here : fs.isDirectoryAt (.present fs.workingDirectory.base) = true

/-- A location where something may be put: its name is one, and a directory is there to hold it. -/
structure IsPlace (fs : FileSystem) (l : Location) : Prop where
  names : ∀ n ∈ l, IsName n
  outer : fs.isDirectoryAt (.present l.dropLast) = true

variable {fs : FileSystem} {l top : Location} {e : Entry}

theorem mem_of_entry?_eq (h : fs.entry? l = some e) (hl : l ≠ []) : (l, e) ∈ fs.entries := by
  rw [entry?_of_ne_nil hl] at h
  obtain ⟨before, after, heq, -⟩ := List.lookup_eq_some_iff.mp h
  rw [heq]
  exact List.mem_append_right _ List.mem_cons_self

theorem exists_mem_of_isDirectoryAt (h : fs.isDirectoryAt (.present l) = true) (hl : l ≠ []) :
    ∃ t, (l, .directory t) ∈ fs.entries := by
  rw [isDirectoryAt] at h
  split at h
  · next t ht => exact ⟨t, mem_of_entry?_eq ht hl⟩
  · simp at h

namespace Proper

theorem isDirectoryAt_of_exists (hfs : fs.Proper)
    (h : l ≠ [] → ∃ t, (l, .directory t) ∈ fs.entries) : fs.isDirectoryAt (.present l) = true := by
  by_cases hl : l = []
  · subst hl
    rfl
  · obtain ⟨t, ht⟩ := h hl
    simp only [isDirectoryAt, entryAt?, hfs.entry?_eq ht hl]

theorem isPlace_of_mem (hfs : fs.Proper) (he : (l, e) ∈ fs.entries) : fs.IsPlace l where
  names := hfs.names _ he
  outer := by
    cases l using List.reverseRecOn with
    | nil => rfl
    | append_singleton l n =>
      rw [List.dropLast_concat]
      exact hfs.isDirectoryAt_of_append he (by simp)

theorem isPlace_of_isDirectoryAt (hfs : fs.Proper) (h : fs.isDirectoryAt (.present l) = true) :
    fs.IsPlace l := by
  by_cases hl : l = []
  · subst hl
    exact ⟨by simp, rfl⟩
  · obtain ⟨t, ht⟩ := exists_mem_of_isDirectoryAt h hl
    exact hfs.isPlace_of_mem ht

theorem isPlace_concat (hfs : fs.Proper) {n : String} (h : fs.isDirectoryAt (.present l) = true)
    (hn : IsName n) : fs.IsPlace (l ++ [n]) where
  names := by
    intro m hm
    rcases List.mem_append.mp hm with hm | hm
    · exact (hfs.isPlace_of_isDirectoryAt h).names m hm
    · exact List.mem_singleton.mp hm ▸ hn
  outer := by rwa [List.dropLast_concat]

end Proper

/-! ## Putting an entry in its place -/

theorem mem_setEntry {l' : Location} {e' : Entry} :
    (l', e') ∈ (fs.setEntry l e).entries ↔
      (l' = l ∧ e' = e) ∨ ((l', e') ∈ fs.entries ∧ l' ≠ l) := by
  simp [setEntry]

/-- A directory stays one where an entry is put, unless it is replaced by something else. -/
theorem exists_mem_setEntry (hkeep : fs.isDirectoryAt (.present l) = true → ∃ t, e = .directory t)
    {l' : Location} (h : fs.isDirectoryAt (.present l') = true) (hl' : l' ≠ []) :
    ∃ t, (l', .directory t) ∈ (fs.setEntry l e).entries := by
  by_cases hsame : l' = l
  · subst hsame
    obtain ⟨t, rfl⟩ := hkeep h
    exact ⟨t, mem_setEntry.mpr (.inl ⟨rfl, rfl⟩)⟩
  · obtain ⟨t, ht⟩ := exists_mem_of_isDirectoryAt h hl'
    exact ⟨t, mem_setEntry.mpr (.inr ⟨ht, hsame⟩)⟩

theorem Proper.setEntry (hfs : fs.Proper) (hplace : fs.IsPlace l)
    (hkeep : fs.isDirectoryAt (.present l) = true → ∃ t, e = .directory t) :
    (fs.setEntry l e).Proper where
  names := by
    rintro ⟨l', e'⟩ he' n hn
    obtain ⟨rfl, rfl⟩ | ⟨he', -⟩ := mem_setEntry.mp he'
    · exact hplace.names n hn
    · exact hfs.names _ he' n hn
  root := by
    intro e' he'
    obtain ⟨hl, rfl⟩ | ⟨he', -⟩ := mem_setEntry.mp he'
    · exact hkeep (hl ▸ rfl)
    · exact hfs.root _ he'
  outer := by
    rintro ⟨l', e'⟩ he' hne
    obtain ⟨rfl, rfl⟩ | ⟨he', -⟩ := mem_setEntry.mp he'
    · exact exists_mem_setEntry hkeep hplace.outer hne
    · exact exists_mem_setEntry hkeep (hfs.isPlace_of_mem he').outer hne
  nodup := by
    rw [FileSystem.setEntry, List.map_cons, List.nodup_cons]
    refine ⟨?_, (List.filter_sublist.map _).nodup hfs.nodup⟩
    intro hmem
    obtain ⟨e', he', hl⟩ := List.mem_map.mp hmem
    simpa [hl] using (List.mem_filter.mp he').2

theorem Orderly.setEntry (hfs : fs.Orderly) (hplace : fs.IsPlace l)
    (hkeep : fs.isDirectoryAt (.present l) = true → ∃ t, e = .directory t)
    (htarget : ∀ target, e = .link target → containsNull target = false) :
    (fs.setEntry l e).Orderly where
  toProper := hfs.toProper.setEntry hplace hkeep
  targets := by
    intro l' target he'
    obtain ⟨rfl, rfl⟩ | ⟨he', -⟩ := mem_setEntry.mp he'
    · exact htarget _ rfl
    · exact hfs.targets _ _ he'
  here := (hfs.toProper.setEntry hplace hkeep).isDirectoryAt_of_exists
    (exists_mem_setEntry hkeep hfs.here)

/-! ## Erasing -/

theorem mem_eraseBelow {l : Location} {e : Entry} :
    (l, e) ∈ (fs.eraseBelow top).entries ↔ (l, e) ∈ fs.entries ∧ ¬top <+: l := by
  simp [eraseBelow, ← List.isPrefixOf_iff_prefix]

theorem exists_mem_eraseBelow (h : fs.isDirectoryAt (.present l) = true) (hbelow : ¬top <+: l)
    (hl : l ≠ []) : ∃ t, (l, .directory t) ∈ (fs.eraseBelow top).entries := by
  obtain ⟨t, ht⟩ := exists_mem_of_isDirectoryAt h hl
  exact ⟨t, mem_eraseBelow.mpr ⟨ht, hbelow⟩⟩

theorem Proper.eraseBelow (hfs : fs.Proper) (top : Location) : (fs.eraseBelow top).Proper where
  names := by
    rintro ⟨l, e⟩ he
    exact hfs.names _ (mem_eraseBelow.mp he).1
  root e he := hfs.root e (mem_eraseBelow.mp he).1
  outer := by
    rintro ⟨l, e⟩ he hne
    obtain ⟨he, hbelow⟩ := mem_eraseBelow.mp he
    have hbelow' : ¬top <+: l.dropLast := fun h ↦ hbelow (h.trans (List.dropLast_prefix l))
    exact exists_mem_eraseBelow (hfs.isPlace_of_mem he).outer hbelow' hne
  nodup := (List.filter_sublist.map _).nodup hfs.nodup

theorem Proper.isDirectoryAt_eraseBelow (hfs : fs.Proper) (h : fs.isDirectoryAt (.present l) = true)
    (hbelow : ¬top <+: l) : (fs.eraseBelow top).isDirectoryAt (.present l) = true :=
  (hfs.eraseBelow top).isDirectoryAt_of_exists (exists_mem_eraseBelow h hbelow)

theorem not_prefix_dropLast (htop : top ≠ []) : ¬top <+: top.dropLast := by
  intro h
  have hlength := h.length_le
  rw [List.length_dropLast] at hlength
  have hpos := List.length_pos_iff.mpr htop
  omega

theorem Position.base_map (f : Location → Position) (p : Position) :
    (p.map f).base = (f p.base).base := by
  induction p with
  | present l => rfl
  | removed p ih => exact ih

theorem Position.base_removedBelow (p : Position) (n : Nat) : (p.removedBelow n).base = p.base := by
  induction n with
  | zero => rfl
  | succ n ih => exact ih

theorem Orderly.eraseBelow (hfs : fs.Orderly) (htop : top ≠ [])
    (houter : fs.isDirectoryAt (.present top.dropLast) = true) : (fs.eraseBelow top).Orderly where
  toProper := hfs.toProper.eraseBelow top
  targets l target he := hfs.targets _ _ (mem_eraseBelow.mp he).1
  here := by
    have hhere :
        (fs.eraseBelow top).workingDirectory = fs.workingDirectory.map (afterErasing top) := rfl
    rw [hhere, Position.base_map, afterErasing]
    split
    · rw [Position.base_removedBelow]
      exact hfs.toProper.isDirectoryAt_eraseBelow houter (not_prefix_dropLast htop)
    · next hbelow =>
      exact hfs.toProper.isDirectoryAt_eraseBelow hfs.here
        (mt List.isPrefixOf_iff_prefix.mpr hbelow)

theorem Orderly.clear (hfs : fs.Orderly) (h : fs.isDirectoryAt (.present l) = true) :
    (fs.clear l).Orderly := by
  rw [FileSystem.clear]
  generalize fs.namesIn l = names
  induction names generalizing fs with
  | nil => exact hfs
  | cons n names ih =>
    have hend : ¬l ++ [n] <+: l := by
      have hlast := @not_prefix_dropLast (l ++ [n]) (by simp)
      rwa [List.dropLast_concat] at hlast
    refine ih (hfs.eraseBelow (by simp) ?_) (hfs.toProper.isDirectoryAt_eraseBelow h hend)
    rwa [List.dropLast_concat]

/-! ## Moving -/

variable {src dst : Location}

theorem mem_moveBelow {l : Location} {e : Entry} :
    (l, e) ∈ (fs.moveBelow src dst).entries ↔
      ∃ l₀, (l₀, e) ∈ fs.entries ∧ afterMoving src dst l₀ = l := by
  simp [moveBelow]

theorem afterMoving_append (rest : Location) : afterMoving src dst (src ++ rest) = dst ++ rest := by
  simp [afterMoving, List.isPrefixOf_iff_prefix]

theorem afterMoving_of_not_below (h : ¬src <+: l) : afterMoving src dst l = l := by
  simp [afterMoving, List.isPrefixOf_iff_prefix, h]

theorem exists_mem_moveBelow (h : fs.isDirectoryAt (.present l) = true) (hl : l ≠ []) :
    ∃ t, (afterMoving src dst l, .directory t) ∈ (fs.moveBelow src dst).entries := by
  obtain ⟨t, ht⟩ := exists_mem_of_isDirectoryAt h hl
  exact ⟨t, mem_moveBelow.mpr ⟨l, ht, rfl⟩⟩

/-- Something may be moved to where nothing is, but not into itself. -/
structure IsFree (fs : FileSystem) (src dst : Location) : Prop where
  place : fs.IsPlace dst
  src_ne : src ≠ []
  dst_ne : dst ≠ []
  vacant : ∀ e ∈ fs.entries, ¬dst <+: e.1
  apart : ¬src <+: dst

/-- Nothing stands where things are moved to, so no two of them come to one location. -/
theorem eq_of_afterMoving_eq {l l' : Location} (hl : ¬dst <+: l) (hl' : ¬dst <+: l')
    (heq : afterMoving src dst l = afterMoving src dst l') : l = l' := by
  by_cases hbelow : src <+: l <;> by_cases hbelow' : src <+: l'
  · obtain ⟨rest, rfl⟩ := hbelow
    obtain ⟨rest', rfl⟩ := hbelow'
    rw [afterMoving_append, afterMoving_append] at heq
    rw [List.append_cancel_left heq]
  · obtain ⟨rest, rfl⟩ := hbelow
    rw [afterMoving_append, afterMoving_of_not_below hbelow'] at heq
    exact absurd ⟨rest, heq⟩ hl'
  · obtain ⟨rest', rfl⟩ := hbelow'
    rw [afterMoving_append, afterMoving_of_not_below hbelow] at heq
    exact absurd ⟨rest', heq.symm⟩ hl
  · rwa [afterMoving_of_not_below hbelow, afterMoving_of_not_below hbelow'] at heq

/-- What is moved comes to stand in the directory that is moved around it, or in that of its new
location. -/
theorem IsFree.exists_mem_dropLast (hfree : fs.IsFree src dst)
    (houter : fs.isDirectoryAt (.present l.dropLast) = true)
    (hne : (afterMoving src dst l).dropLast ≠ []) :
    ∃ t, ((afterMoving src dst l).dropLast, .directory t) ∈ (fs.moveBelow src dst).entries := by
  by_cases hbelow : src <+: l
  · obtain ⟨rest, rfl⟩ := hbelow
    rw [afterMoving_append] at hne ⊢
    by_cases hrest : rest = []
    · subst hrest
      rw [List.append_nil] at hne ⊢
      have hapart : ¬src <+: dst.dropLast :=
        fun h ↦ hfree.apart (h.trans (List.dropLast_prefix dst))
      rw [← afterMoving_of_not_below hapart]
      exact exists_mem_moveBelow hfree.place.outer hne
    · rw [List.dropLast_append_of_ne_nil hrest] at houter ⊢
      rw [← afterMoving_append]
      exact exists_mem_moveBelow houter (List.append_ne_nil_of_left_ne_nil hfree.src_ne _)
  · rw [afterMoving_of_not_below hbelow] at hne ⊢
    have hbelow' : ¬src <+: l.dropLast := fun h ↦ hbelow (h.trans (List.dropLast_prefix l))
    rw [← afterMoving_of_not_below hbelow']
    exact exists_mem_moveBelow houter hne

theorem Proper.moveBelow (hfs : fs.Proper) (hfree : fs.IsFree src dst) :
    (fs.moveBelow src dst).Proper where
  names := by
    rintro ⟨l, e⟩ he n hn
    obtain ⟨l₀, he₀, rfl⟩ := mem_moveBelow.mp he
    by_cases hbelow : src <+: l₀
    · obtain ⟨rest, rfl⟩ := hbelow
      rw [afterMoving_append] at hn
      rcases List.mem_append.mp hn with hn | hn
      · exact hfree.place.names n hn
      · exact hfs.names _ he₀ n (List.mem_append_right _ hn)
    · rw [afterMoving_of_not_below hbelow] at hn
      exact hfs.names _ he₀ n hn
  root := by
    intro e he
    obtain ⟨l₀, he₀, hl₀⟩ := mem_moveBelow.mp he
    by_cases hbelow : src <+: l₀
    · obtain ⟨rest, rfl⟩ := hbelow
      rw [afterMoving_append] at hl₀
      exact absurd (List.append_eq_nil_iff.mp hl₀).1 hfree.dst_ne
    · rw [afterMoving_of_not_below hbelow] at hl₀
      exact hfs.root e (hl₀ ▸ he₀)
  outer := by
    rintro ⟨l, e⟩ he hne
    obtain ⟨l₀, he₀, rfl⟩ := mem_moveBelow.mp he
    exact hfree.exists_mem_dropLast (hfs.isPlace_of_mem he₀).outer hne
  nodup := by
    have hkeys : (fs.moveBelow src dst).entries.map Prod.fst =
        (fs.entries.map Prod.fst).map (afterMoving src dst) := by simp [FileSystem.moveBelow]
    have hvacant : ∀ l ∈ fs.entries.map Prod.fst, ¬dst <+: l := by
      intro l hl
      obtain ⟨e, he, rfl⟩ := List.mem_map.mp hl
      exact hfree.vacant e he
    rw [hkeys]
    exact hfs.nodup.map_on fun l hl l' hl' ↦ eq_of_afterMoving_eq (hvacant l hl) (hvacant l' hl')

theorem Orderly.moveBelow (hfs : fs.Orderly) (hfree : fs.IsFree src dst) :
    (fs.moveBelow src dst).Orderly where
  toProper := hfs.toProper.moveBelow hfree
  targets l target he := by
    obtain ⟨l₀, he₀, -⟩ := mem_moveBelow.mp he
    exact hfs.targets _ _ he₀
  here := by
    have hhere : (fs.moveBelow src dst).workingDirectory =
        fs.workingDirectory.map fun l ↦ .present (afterMoving src dst l) := rfl
    rw [hhere, Position.base_map]
    refine (hfs.toProper.moveBelow hfree).isDirectoryAt_of_exists fun hne ↦
      exists_mem_moveBelow hfs.here ?_
    intro hroot
    have hbelow : ¬src <+: [] := fun h ↦ hfree.src_ne (List.prefix_nil.mp h)
    rw [hroot] at hne
    exact hne (afterMoving_of_not_below hbelow)

end ModuleReload.FileSystem
