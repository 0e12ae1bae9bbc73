/-!
# Sorted names

Lists of names that an answer shows are sorted in the order of their characters.
-/

namespace ModuleReload.Text

def sorted (names : List String) : List String :=
  names.mergeSort fun a b ↦ decide (a ≤ b)

theorem sorted_perm (names : List String) : (sorted names).Perm names :=
  List.mergeSort_perm _ _

theorem mem_sorted {names : List String} {n : String} : n ∈ sorted names ↔ n ∈ names :=
  (sorted_perm names).mem_iff

theorem pairwise_sorted (names : List String) : (sorted names).Pairwise (· ≤ ·) := by
  have h : (sorted names).Pairwise fun a b ↦ decide (a ≤ b) = true :=
    List.pairwise_mergeSort
      (fun a b c hab hbc ↦ by
        simp only [decide_eq_true_eq] at hab hbc ⊢
        exact String.le_trans hab hbc)
      (fun a b ↦ by
        simp only [Bool.or_eq_true, decide_eq_true_eq]
        exact String.le_total a b)
      names
  exact h.imp fun hab ↦ by simpa using hab

/-- The names between commas. -/
def listed (names : List String) : String :=
  ", ".intercalate names

end ModuleReload.Text
