/-!
# Tables

A finite table from keys to values, in the order in which the keys came in. What a table holds is
seen through `get?`, and each operation says what it does to it: setting a key shows its value and
hides nothing else, erasing a key hides it alone, and merging keeps what is there and adds the rest
of the other table. No key occurs twice, which is part of the type, so `size` counts keys.
-/

namespace ModuleReload

/-- A finite table from keys to values. -/
structure Table (κ α : Type) where
  entries : List (κ × α)
  nodup : (entries.map Prod.fst).Nodup

namespace Table

variable {κ α : Type}

/-! ## Operations -/

def empty : Table κ α :=
  ⟨[], List.nodup_nil⟩

/-- The keys of a table, in the order in which they came in. -/
def keys (t : Table κ α) : List κ :=
  t.entries.map Prod.fst

def size (t : Table κ α) : Nat :=
  t.entries.length

def isEmpty (t : Table κ α) : Bool :=
  t.entries.isEmpty

theorem nodup_filter {l : List (κ × α)} (h : (l.map Prod.fst).Nodup) (p : κ × α → Bool) :
    ((l.filter p).map Prod.fst).Nodup :=
  (List.filter_sublist.map _).nodup h

variable [DecidableEq κ]

def get? (t : Table κ α) (k : κ) : Option α :=
  t.entries.lookup k

def erase (t : Table κ α) (k : κ) : Table κ α :=
  ⟨t.entries.filter (·.1 ≠ k), nodup_filter t.nodup _⟩

/-- The table with the value of one key set. -/
def insert (t : Table κ α) (k : κ) (a : α) : Table κ α :=
  ⟨(t.erase k).entries ++ [(k, a)], by
    rw [List.map_append, List.nodup_append]
    exact ⟨(t.erase k).nodup, by simp, by simp [erase]⟩⟩

/-- The table with the entries of another whose keys it lacks. -/
def merge (t u : Table κ α) : Table κ α :=
  ⟨t.entries ++ u.entries.filter fun e ↦ !t.keys.contains e.1, by
    rw [List.map_append, List.nodup_append]
    refine ⟨t.nodup, nodup_filter u.nodup _, ?_⟩
    rintro a ha b hb rfl
    obtain ⟨e, he, rfl⟩ := List.mem_map.mp hb
    have := (List.mem_filter.mp he).2
    simp only [keys, List.contains_eq_mem, Bool.not_eq_true', decide_eq_false_iff_not] at this
    exact this ha⟩

/-! ## What the operations show -/

@[simp] theorem get?_empty (k : κ) : (empty : Table κ α).get? k = none := rfl

theorem lookup_append (l m : List (κ × α)) (k : κ) :
    (l ++ m).lookup k = (l.lookup k).or (m.lookup k) := by
  induction l with
  | nil => simp
  | cons e l ih =>
    rw [List.cons_append, List.lookup_cons, List.lookup_cons, ih]
    split <;> simp

theorem lookup_filter (l : List (κ × α)) (p : κ → Bool) (k : κ) :
    (l.filter fun e ↦ p e.1).lookup k = if p k then l.lookup k else none := by
  induction l with
  | nil => simp
  | cons e l ih =>
    obtain ⟨i, a⟩ := e
    by_cases hk : k = i
    · subst hk
      cases hp : p k with
      | true => simp [hp]
      | false => simp [hp, ih]
    · have hne : (k == i) = false := by simpa using hk
      cases hp : p i <;> simp [hp, List.lookup_cons, hne, ih]

theorem mem_keys {t : Table κ α} {k : κ} : k ∈ t.keys ↔ (t.get? k).isSome := by
  rw [keys, get?]
  induction t.entries with
  | nil => simp
  | cons e l ih =>
    rw [List.map_cons, List.mem_cons, ih, List.lookup_cons]
    by_cases hk : k = e.1
    · simp [hk]
    · have hne : (k == e.1) = false := by simpa using hk
      simp [hk, hne]

theorem get?_erase (t : Table κ α) (k j : κ) :
    (t.erase k).get? j = if j = k then none else t.get? j := by
  have h := lookup_filter t.entries (fun i ↦ decide (i ≠ k)) j
  rw [get?, erase, h]
  by_cases hj : j = k <;> simp [hj, get?]

theorem get?_insert (t : Table κ α) (k j : κ) (a : α) :
    (t.insert k a).get? j = if j = k then some a else t.get? j := by
  have h : (t.insert k a).get? j = ((t.erase k).get? j).or ([(k, a)].lookup j) :=
    lookup_append _ _ j
  rw [h, get?_erase, List.lookup_cons]
  by_cases hj : j = k
  · simp [hj]
  · have hne : (j == k) = false := by simpa using hj
    simp [hj, hne]

theorem get?_merge (t u : Table κ α) (k : κ) :
    (t.merge u).get? k = (t.get? k).or (u.get? k) := by
  have h : (t.merge u).get? k =
      (t.get? k).or ((u.entries.filter fun e ↦ !t.keys.contains e.1).lookup k) :=
    lookup_append _ _ k
  rw [h, lookup_filter u.entries (fun i ↦ !t.keys.contains i) k]
  cases hk : t.get? k with
  | some a => simp
  | none =>
    have hnot : k ∉ t.keys := by simp [mem_keys, hk]
    simp [hnot, get?]

theorem empty_merge (t : Table κ α) : empty.merge t = t := by
  obtain ⟨l, h⟩ := t
  simp [merge, empty, keys]

end Table

end ModuleReload
