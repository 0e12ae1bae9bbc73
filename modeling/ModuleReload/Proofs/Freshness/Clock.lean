import Mathlib.Data.List.Nodup
import Mathlib.Data.String.Basic
import ModuleReload.Freshness.Clock

/-!
# Times on the reload clock

Every time that is recorded was handed out by the clock (`ReloadTimes.Sound`), so what was reloaded
after a mark is told by the times that are later than the mark, whether or not anything had been
reloaded before it (`ReloadTimes.mem_after_iff`).
-/

namespace ModuleReload

theorem Table.mem_entries_iff {κ α : Type} [DecidableEq κ] {t : Table κ α} {k : κ} {a : α} :
    (k, a) ∈ t.entries ↔ t.get? k = some a := by
  obtain ⟨l, hnodup⟩ := t
  show (k, a) ∈ l ↔ l.lookup k = some a
  induction l with
  | nil => simp
  | cons e l ih =>
    obtain ⟨j, b⟩ := e
    rw [List.map_cons, List.nodup_cons] at hnodup
    rw [List.mem_cons, List.lookup_cons]
    by_cases hkey : k = j
    · subst hkey
      have hnew : (k, a) ∉ l := fun hmem ↦
        hnodup.1 (List.mem_map.mpr ⟨_, hmem, rfl⟩)
      simp [hnew, eq_comm]
    · have hne : (k == j) = false := by simpa using hkey
      simp only [Prod.mk.injEq, hkey, false_and, false_or, hne]
      exact ih hnodup.2

namespace ReloadTimes

/-! ## Times on the clock -/

/-- Every module that has been reloaded bears a tick that the clock has handed out. -/
def Sound (r : ReloadTimes) : Prop :=
  ∀ n u, r.get? n = some u → 0 < u ∧ u ≤ r.clock

theorem Sound.empty : empty.Sound := by
  intro n u hu
  simp [get?, ReloadTimes.empty] at hu

theorem Sound.tick {r : ReloadTimes} (hr : r.Sound) : r.tick.2.Sound :=
  fun n u hu ↦ ⟨(hr n u hu).1, Nat.le_succ_of_le (hr n u hu).2⟩

theorem Sound.record {r : ReloadTimes} (hr : r.Sound) {n : String} {t : Tick} (hpos : 0 < t)
    (ht : t ≤ r.clock) : (r.record n t).Sound := by
  intro k u hu
  rw [get?, ReloadTimes.record, Table.get?_insert] at hu
  split at hu
  · obtain rfl := Option.some.inj hu
    exact ⟨hpos, ht⟩
  · exact hr k u hu

theorem Sound.merge {r s : ReloadTimes} (hr : r.Sound) (hs : s.Sound) : (r.merge s).Sound := by
  intro n u hu
  rw [get?, ReloadTimes.merge, Table.get?_merge] at hu
  have hclock : (r.merge s).clock = max r.clock s.clock := rfl
  rw [hclock]
  cases hn : r.times.get? n with
  | some v =>
    rw [hn, Option.some_or] at hu
    obtain ⟨hpos, hle⟩ := hr n u (hn.trans hu)
    exact ⟨hpos, Nat.le_trans hle (Nat.le_max_left _ _)⟩
  | none =>
    rw [hn, Option.none_or] at hu
    obtain ⟨hpos, hle⟩ := hs n u hu
    exact ⟨hpos, Nat.le_trans hle (Nat.le_max_right _ _)⟩

/-! ## What was reloaded after a mark -/

theorem mem_namesWhere_iff {r : ReloadTimes} {p : Tick → Bool} {n : String} :
    n ∈ r.namesWhere p ↔ ∃ u, r.get? n = some u ∧ p u = true := by
  rw [namesWhere, Text.mem_sorted, List.mem_map]
  constructor
  · rintro ⟨⟨k, u⟩, hmem, rfl⟩
    obtain ⟨hentry, hu⟩ := List.mem_filter.mp hmem
    exact ⟨u, Table.mem_entries_iff.mp hentry, hu⟩
  · rintro ⟨u, hentry, hu⟩
    exact ⟨(n, u), List.mem_filter.mpr ⟨Table.mem_entries_iff.mpr hentry, hu⟩, rfl⟩

theorem pairwise_namesWhere (r : ReloadTimes) (p : Tick → Bool) :
    (r.namesWhere p).Pairwise (· < ·) := by
  have hnodup : (r.namesWhere p).Nodup :=
    (Text.sorted_perm _).nodup_iff.mpr (Table.nodup_filter r.times.nodup _)
  have hsorted : (r.namesWhere p).Pairwise (· ≤ ·) := Text.pairwise_sorted _
  refine (hsorted.and hnodup).imp fun hab ↦ ?_
  exact lt_of_le_of_ne hab.1 hab.2

/-- What was reloaded after a moment is what bears a later time than the clock showed then. -/
theorem mem_after_iff {r s : ReloadTimes} (hr : r.Sound) {n : String} :
    n ∈ r.after s.now? ↔ ∃ u, r.get? n = some u ∧ s.clock < u := by
  rw [after, mem_namesWhere_iff]
  refine exists_congr fun u ↦ and_congr_right fun hu ↦ ?_
  rw [now?]
  have hpos := (hr n u hu).1
  split
  · next hzero => simp [hzero, hpos]
  · simp

end ReloadTimes

end ModuleReload
