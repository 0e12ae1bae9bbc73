/-!
# Pieces between separators

A path is pieces between slashes, a dotted name pieces between dots, an import list pieces between
commas. `pieces` cuts a list at every separator, and `joinPieces` puts the separators back. Cutting
loses nothing (`joinPieces_pieces`), so a value may be kept in pieces and still be written exactly
as it was read; and no piece holds a separator (`not_mem_of_mem_pieces`), so cutting what was
joined from such pieces gives them back (`pieces_joinPieces`).
-/

namespace ModuleReload.Text

variable {α : Type} [DecidableEq α]

/-! ## Lists -/

/-- The pieces of a list between separators: one more than there are separators, so never none. -/
def pieces (sep : α) : List α → List (List α)
  | [] => [[]]
  | a :: as =>
    if a = sep then [] :: pieces sep as
    else match pieces sep as with
      | [] => [[a]]
      | p :: ps => (a :: p) :: ps

def joinPieces (sep : α) : List (List α) → List α
  | [] => []
  | [p] => p
  | p :: q :: ps => p ++ sep :: joinPieces sep (q :: ps)

theorem pieces_ne_nil (sep : α) (as : List α) : pieces sep as ≠ [] := by
  cases as with
  | nil => simp [pieces]
  | cons a as =>
    rw [pieces]
    split
    · simp
    · split <;> simp

theorem joinPieces_pieces (sep : α) (as : List α) : joinPieces sep (pieces sep as) = as := by
  induction as with
  | nil => rfl
  | cons a as ih =>
    rw [pieces]
    cases h : pieces sep as with
    | nil => exact absurd h (pieces_ne_nil sep as)
    | cons p ps =>
      rw [h] at ih
      split
      · next hsep => rw [joinPieces, ih, hsep, List.nil_append]
      · cases ps with
        | nil => simp only [joinPieces] at ih ⊢; rw [ih]
        | cons q qs => simp only [joinPieces, List.cons_append] at ih ⊢; rw [ih]

theorem not_mem_of_mem_pieces {sep : α} {as p : List α} (hp : p ∈ pieces sep as) : sep ∉ p := by
  induction as generalizing p with
  | nil => simp_all [pieces]
  | cons a as ih =>
    rw [pieces] at hp
    cases h : pieces sep as with
    | nil => exact absurd h (pieces_ne_nil sep as)
    | cons q qs =>
      rw [h] at hp ih
      split at hp
      · rcases List.mem_cons.mp hp with rfl | hp
        · simp
        · exact ih hp
      · next hsep =>
        rcases List.mem_cons.mp hp with rfl | hp
        · have hq : sep ∉ q := ih List.mem_cons_self
          exact fun hmem ↦ (List.mem_cons.mp hmem).elim (fun e ↦ hsep e.symm) hq
        · exact ih (List.mem_cons_of_mem _ hp)

theorem pieces_of_not_mem {sep : α} {as : List α} (h : sep ∉ as) : pieces sep as = [as] := by
  induction as with
  | nil => rfl
  | cons a as ih =>
    have ha : a ≠ sep := fun e ↦ h (e ▸ List.mem_cons_self)
    rw [pieces, if_neg ha, ih fun hm ↦ h (List.mem_cons_of_mem _ hm)]

theorem pieces_append_cons {sep : α} {p : List α} (h : sep ∉ p) (as : List α) :
    pieces sep (p ++ sep :: as) = p :: pieces sep as := by
  induction p with
  | nil => simp [pieces]
  | cons a p ih =>
    have ha : a ≠ sep := fun e ↦ h (e ▸ List.mem_cons_self)
    rw [List.cons_append, pieces, if_neg ha, ih fun hm ↦ h (List.mem_cons_of_mem _ hm)]

/-- Cutting what was joined from separator-free pieces gives the pieces back. -/
theorem pieces_joinPieces {sep : α} {ps : List (List α)} (hne : ps ≠ [])
    (h : ∀ p ∈ ps, sep ∉ p) : pieces sep (joinPieces sep ps) = ps := by
  induction ps with
  | nil => exact absurd rfl hne
  | cons p ps ih =>
    cases ps with
    | nil => exact pieces_of_not_mem (h p List.mem_cons_self)
    | cons q qs =>
      rw [joinPieces, pieces_append_cons (h p List.mem_cons_self),
        ih (by simp) fun r hr ↦ h r (List.mem_cons_of_mem _ hr)]

theorem pieces_concat (sep : α) (as : List α) :
    pieces sep (as ++ [sep]) = pieces sep as ++ [[]] := by
  induction as with
  | nil => simp [pieces]
  | cons a as ih =>
    rw [List.cons_append, pieces, pieces, ih]
    cases h : pieces sep as with
    | nil => exact absurd h (pieces_ne_nil sep as)
    | cons p ps => split <;> simp

omit [DecidableEq α] in
/-- An empty piece at the end is written as a separator. -/
theorem joinPieces_concat {sep : α} {ps : List (List α)} (hne : ps ≠ []) :
    joinPieces sep (ps ++ [[]]) = joinPieces sep ps ++ [sep] := by
  induction ps with
  | nil => exact absurd rfl hne
  | cons p ps ih =>
    cases ps with
    | nil => rfl
    | cons q qs =>
      have hrest := ih (by simp)
      rw [List.cons_append] at hrest
      rw [List.cons_append, List.cons_append, joinPieces, hrest, joinPieces, List.append_assoc,
        List.cons_append]

/-! ## Strings -/

/-- The pieces of a string between separators. -/
def cut (sep : Char) (s : String) : List String :=
  (pieces sep s.toList).map String.ofList

def paste (sep : Char) (ps : List String) : String :=
  String.ofList (joinPieces sep (ps.map String.toList))

theorem cut_ne_nil (sep : Char) (s : String) : cut sep s ≠ [] := by
  simp [cut, pieces_ne_nil]

theorem not_mem_of_mem_cut {sep : Char} {s p : String} (hp : p ∈ cut sep s) : sep ∉ p.toList := by
  obtain ⟨cs, hcs, rfl⟩ := List.mem_map.mp hp
  rw [String.toList_ofList]
  exact not_mem_of_mem_pieces hcs

theorem paste_singleton (sep : Char) (p : String) : paste sep [p] = p :=
  String.ofList_toList

theorem paste_cons (sep : Char) (p : String) {ps : List String} (hne : ps ≠ []) :
    paste sep (p :: ps) = p ++ String.ofList [sep] ++ paste sep ps := by
  cases ps with
  | nil => exact absurd rfl hne
  | cons q ps =>
    rw [paste, List.map_cons, List.map_cons, joinPieces, ← List.singleton_append,
      String.ofList_append, String.ofList_append, String.ofList_toList, ← String.append_assoc]
    rfl

theorem paste_concat (sep : Char) {ps : List String} (hne : ps ≠ []) (p : String) :
    paste sep (ps ++ [p]) = paste sep ps ++ String.ofList [sep] ++ p := by
  induction ps with
  | nil => exact absurd rfl hne
  | cons q ps ih =>
    rw [List.cons_append, paste_cons sep q (by simp)]
    cases ps with
    | nil => rw [List.nil_append, paste_singleton, paste_singleton]
    | cons r ps =>
      rw [ih (by simp), paste_cons sep q (by simp)]
      simp only [String.append_assoc]

theorem paste_cut (sep : Char) (s : String) : paste sep (cut sep s) = s := by
  have h : ((pieces sep s.toList).map String.ofList).map String.toList = pieces sep s.toList := by
    rw [List.map_map]
    exact (List.map_congr_left fun p _ ↦ String.toList_ofList).trans (List.map_id _)
  rw [paste, cut, h, joinPieces_pieces, String.ofList_toList]

/-- Cutting what was pasted from separator-free strings gives the strings back. -/
theorem cut_paste {sep : Char} {ps : List String} (hne : ps ≠ [])
    (h : ∀ p ∈ ps, sep ∉ p.toList) : cut sep (paste sep ps) = ps := by
  have hlist : ∀ p ∈ ps.map String.toList, sep ∉ p := by
    simpa using h
  rw [cut, paste, String.toList_ofList, pieces_joinPieces (by simpa using hne) hlist,
    List.map_map]
  exact (List.map_congr_left fun p _ ↦ String.ofList_toList).trans (List.map_id _)

end ModuleReload.Text
