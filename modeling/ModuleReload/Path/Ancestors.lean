import ModuleReload.Path.Parts

/-!
# The directories around a path

`ancestors` lists a path, its parent, the parent of that and so on, up to the root or the empty
path. Every search that climbs from a directory outwards is a search in this list.
-/

namespace ModuleReload.Path

theorem length_keptPieces_le (front : Bool) (ps : List Bytes) :
    (keptPieces front ps).length ≤ ps.length := by
  induction ps generalizing front with
  | nil => simp [keptPieces]
  | cons p ps ih =>
    have hrest := ih false
    rw [keptPieces]
    split
    · split <;> simp
    · next h => rw [List.length_cons, List.length_cons]; omega

theorem length_kept_of_parent? {p q : Path} (h : p.parent? = some q) :
    q.kept.length < p.kept.length := by
  rw [parent?] at h
  split at h
  · exact absurd h (by simp)
  · next hne =>
    simp only [Option.some.injEq] at h
    rw [← h]
    have h1 := length_keptPieces_le (!p.rooted) (keptPieces (!p.rooted) p.kept.dropLast)
    have h2 := length_keptPieces_le (!p.rooted) p.kept.dropLast
    have h3 : 0 < p.kept.length := List.length_pos_iff.mpr fun e ↦ hne e
    rw [List.length_dropLast] at h2
    simp only [kept] at *
    omega

/-- The path, its parent, the parent's parent and so on. -/
def ancestors (p : Path) : List Path :=
  match _h : p.parent? with
  | none => [p]
  | some q => p :: ancestors q
termination_by p.kept.length
decreasing_by exact length_kept_of_parent? (by assumption)

theorem ancestors_ne_nil (p : Path) : p.ancestors ≠ [] := by
  rw [ancestors]
  split <;> simp

end ModuleReload.Path
