import ModuleReload.Proofs.FileSystem.Leads

/-!
# Spellings of a path

Baselines are kept by the components of a path, while the file system is asked with the path as it
is written. Two spellings of one path may differ in empty pieces and dots, and these can make a
walk fail, for a slash asks for a directory. What they cannot do is to lead elsewhere: two spellings
that both lead somewhere lead to the same place (`lookup_eq_of_components`), so the components are
a sound key for modification times (`modified?_eq_of_components`).

The invariant is `Thinner`: a walk that succeeds goes the same way with some of its empty pieces and
dots left out. It is stated for lists of pieces and not for paths, because a link puts the pieces of
its target in front of what is left of the walk.
-/

namespace ModuleReload

/-! ## Leaving pieces out -/

namespace Path

/-- The second list is the first with some empty pieces and dots left out. -/
inductive Thinner : List String → List String → Prop
  | nil : Thinner [] []
  | keep {ps qs : List String} (p : String) : Thinner ps qs → Thinner (p :: ps) (p :: qs)
  | drop {ps qs : List String} {p : String} (hp : p = "" ∨ p = ".") :
      Thinner ps qs → Thinner (p :: ps) qs

namespace Thinner

theorem append_left (front : List String) {ps qs : List String} (h : Thinner ps qs) :
    Thinner (front ++ ps) (front ++ qs) := by
  induction front with
  | nil => exact h
  | cons p front ih => exact keep p ih

theorem cons_inv {p : String} {ps qs : List String} (hp : ¬(p = "" ∨ p = "."))
    (h : Thinner (p :: ps) qs) : ∃ qs', qs = p :: qs' ∧ Thinner ps qs' := by
  cases h with
  | keep _ h => exact ⟨_, rfl, h⟩
  | drop hdot _ => exact absurd hdot hp

theorem refl (ps : List String) : Thinner ps ps := by
  simpa using append_left ps .nil

theorem of_blanks {ps : List String} (h : ∀ p ∈ ps, p = "" ∨ p = ".") : Thinner ps [] := by
  induction ps with
  | nil => exact nil
  | cons p ps ih =>
    obtain ⟨hp, hps⟩ := List.forall_mem_cons.mp h
    exact drop hp (ih hps)

theorem append_right {ps qs : List String} (h : Thinner ps qs) (back : List String) :
    Thinner (ps ++ back) (qs ++ back) := by
  induction h with
  | nil => exact refl back
  | keep p _ ih => exact keep p ih
  | drop hp _ ih => exact drop hp ih

theorem subset {ps qs : List String} (h : Thinner ps qs) : qs ⊆ ps := by
  induction h with
  | nil => exact List.Subset.refl []
  | keep p _ ih => exact List.cons_subset_cons p ih
  | drop _ _ ih => exact List.subset_cons_of_subset _ ih

theorem length_paste_le {ps qs : List String} (h : Thinner ps qs) :
    (Text.paste '/' qs).length ≤ (Text.paste '/' ps).length := by
  have hcons (p : String) {ps : List String} (hps : ps ≠ []) : (Text.paste '/' (p :: ps)).length =
      p.length + 1 + (Text.paste '/' ps).length := by
    have hslash : (String.ofList ['/']).length = 1 := by decide
    rw [Text.paste_cons '/' p hps, String.length_append, String.length_append, hslash]
  induction h with
  | nil => exact Nat.le_refl _
  | @keep ps qs p h ih =>
    by_cases hps : ps = []
    · rw [hps] at h ⊢
      cases h
      exact Nat.le_refl _
    rw [hcons p hps]
    by_cases hqs : qs = []
    · rw [hqs, Text.paste_singleton]
      omega
    · rw [hcons p hqs]
      omega
  | @drop ps qs p _ h ih =>
    by_cases hps : ps = []
    · rw [hps] at h
      cases h
      exact Nat.zero_le _
    · rw [hcons p hps]
      omega

end Thinner

/-- The pieces that stand for components wherever they stand. -/
def solid (ps : List String) : List String :=
  ps.filter fun p ↦ p ≠ "" ∧ p ≠ "."

theorem thinner_solid (ps : List String) : Thinner ps (solid ps) := by
  induction ps with
  | nil => exact .nil
  | cons p ps ih =>
    by_cases hp : p = "" ∨ p = "."
    · have : solid (p :: ps) = solid ps := by
        rcases hp with rfl | rfl <;> simp [solid]
      rw [this]
      exact .drop hp ih
    · have : solid (p :: ps) = p :: solid ps := by
        simp only [not_or] at hp
        simp [solid, hp.1, hp.2]
      rw [this]
      exact .keep p ih

/-! ## Components -/

/-- The piece that a component is written as, if it stands for one wherever it stands. -/
def pieceOf? : Component → Option String
  | .parent => some ".."
  | .name s => some s
  | _ => none

theorem filterMap_componentsOf (ps : List String) :
    (componentsOf ps).filterMap pieceOf? = solid ps := by
  induction ps with
  | nil => rfl
  | cons p ps ih =>
    rw [componentsOf] at ih ⊢
    rw [List.filterMap_cons]
    split
    · next h => split at h <;> simp_all [solid]
    · next h => split at h <;> simp_all [solid] <;> grind [pieceOf?]

theorem filterMap_components (p : Path) : p.components.filterMap pieceOf? = solid p.pieces := by
  rw [components]
  split
  · rw [List.filterMap_cons]
    exact filterMap_componentsOf _
  · next h =>
    rw [List.filterMap_cons, h]
    simp only [pieceOf?, filterMap_componentsOf]
    simp [solid]
  · exact filterMap_componentsOf _

theorem root_mem_components (p : Path) : Component.root ∈ p.components ↔ p.rooted = true := by
  have hnot (ps : List String) : Component.root ∉ componentsOf ps := by
    rw [componentsOf, List.mem_filterMap]
    rintro ⟨p, -, hp⟩
    split at hp <;> simp at hp
  rw [components]
  split <;> simp_all

end Path

/-! ## Walks -/

namespace FileSystem

open ModuleReload.Path

/-- Leaving out empty pieces and dots does not turn a walk elsewhere. -/
theorem Leads.thinner {fs : FileSystem} {links : Nat} {here : Position} {ps qs : List Bytes}
    {goal : Goal} (hw : fs.Leads links here ps goal) (h : Thinner ps qs) :
    fs.Leads links here qs goal := by
  induction hw generalizing qs with
  | here =>
    cases h
    exact .here
  | stay hdir hdot _ ih =>
    cases h with
    | keep _ h => exact .stay hdir hdot (ih h)
    | drop _ h => exact ih h
  | up hdir _ ih =>
    obtain ⟨qs, rfl, htail⟩ := h.cons_inv (by decide)
    exact .up hdir (ih htail)
  | vacant hdir hp hlength hentry =>
    obtain ⟨qs, rfl, htail⟩ := h.cons_inv (not_isDots_iff.mp hp).1
    cases htail
    exact .vacant hdir hp hlength hentry
  | link hdir hp hlength hentry _ ih =>
    obtain ⟨qs, rfl, htail⟩ := h.cons_inv (not_isDots_iff.mp hp).1
    exact .link hdir hp hlength hentry (ih (htail.append_left _))
  | name hdir hp hlength hentry hlink _ ih =>
    obtain ⟨qs, rfl, htail⟩ := h.cons_inv (not_isDots_iff.mp hp).1
    exact .name hdir hp hlength hentry hlink (ih htail)

theorem walk_thinner (fs : FileSystem) {links : Nat} {here goal : Position} {ps qs : List Bytes}
    (hw : fs.walk links here ps = .ok (.found goal)) (h : Thinner ps qs) :
    fs.walk links here qs = .ok (.found goal) :=
  ((Leads.of_walk hw).thinner h).walk_eq

theorem walk_of_lookup {fs : FileSystem} {p : Path} {e : Entry} (h : fs.lookup p = .ok e) :
    ∃ here, fs.walk linkLimit (fs.origin p) p.pieces = .ok (.found here) ∧
      fs.entryAt? here = some e := by
  rw [lookup, locate, goal] at h
  cases hr : refusal? p with
  | some f => simp [hr] at h
  | none =>
    simp only [hr] at h
    split at h
    · next here hgoal =>
      split at hgoal
      · next hwalk =>
        refine ⟨here, ?_, ?_⟩
        · rw [hwalk]; simp_all
        · split at h <;> simp_all
      · simp at hgoal
      · simp at hgoal
    · simp at h

/-- Two spellings of one path that both lead somewhere lead to the same entry. -/
theorem lookup_eq_of_components {fs : FileSystem} {p q : Path} {a b : Entry}
    (h : p.components = q.components) (hp : fs.lookup p = .ok a) (hq : fs.lookup q = .ok b) :
    a = b := by
  obtain ⟨l, hl, ha⟩ := walk_of_lookup hp
  obtain ⟨m, hm, hb⟩ := walk_of_lookup hq
  have hsolid : solid p.pieces = solid q.pieces := by
    rw [← filterMap_components, ← filterMap_components, h]
  have horigin : fs.origin p = fs.origin q := by
    have : p.rooted = q.rooted := by
      rw [Bool.eq_iff_iff, ← root_mem_components, ← root_mem_components, h]
    rw [origin, origin, this]
  have hl' := fs.walk_thinner hl (thinner_solid p.pieces)
  have hm' := fs.walk_thinner hm (thinner_solid q.pieces)
  rw [hsolid, horigin, hm'] at hl'
  simp only [Except.ok.injEq, Goal.found.injEq] at hl'
  rw [hl', ha] at hb
  exact Option.some.inj hb

theorem modified?_eq_of_components {fs : FileSystem} {p q : Path} {t u : Instant}
    (h : p.components = q.components) (hp : fs.modified? p = some t)
    (hq : fs.modified? q = some u) : t = u := by
  rw [modified?] at hp hq
  cases hlp : fs.lookup p with
  | error e => simp [hlp] at hp
  | ok a =>
    cases hlq : fs.lookup q with
    | error e => simp [hlq] at hq
    | ok b =>
      rw [hlp] at hp
      rw [hlq, ← lookup_eq_of_components h hlp hlq] at hq
      exact Option.some.inj (hp.symm.trans hq)

theorem modified?_of_isFile {fs : FileSystem} {p : Path} (h : fs.isFile p = true) :
    ∃ t, fs.modified? p = some t := by
  rw [isFile] at h
  rw [modified?]
  split at h <;> simp_all

end FileSystem

end ModuleReload
