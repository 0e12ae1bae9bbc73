import ModuleReload.Proofs.Tree.Reload

/-!
# Objects whose modules are gone

A refresh lets go of the modules whose sources are gone, and makes new ones for the sources that it
finds, be it under the same names. The objects of the old ones stay behind with their records, and a
handle on such an object may still be held by somebody. Identities are given in turn and never
twice, and only present modules are read again. So an object that has been dropped stays dropped,
and its record stays as it is, whatever happens to the tree (`SourceTree.Dropped`).
-/

namespace ModuleReload.SourceTree

variable {fs : FileSystem} {tree : SourceTree} {m : Module} {i : Nat} {r : SourceRecord}

/-! ## Handles on present modules -/

theorem Sound.module?_eq (ht : tree.Sound) (hm : m ∈ tree.modules) :
    tree.module? m.name = some m := by
  cases hfound : tree.module? m.name with
  | none =>
    have hnone := List.find?_eq_none.mp hfound m hm
    simp at hnone
  | some x =>
    have hname : x.name = m.name := by simpa using List.find?_some hfound
    rw [ht.eq_of_name (List.mem_of_find?_eq_some hfound) hm hname]

/-! ## Dropped objects -/

/-- An object of the tree that has a record, and no module any more. -/
structure Dropped (i : Nat) (r : SourceRecord) (tree : SourceTree) : Prop where
  record : tree.records[i]? = some r
  absent : ∀ m ∈ tree.modules, m.id ≠ i

namespace Dropped

theorem readAgain (hd : tree.Dropped i r) (hm : m.id ≠ i) : (tree.readAgain fs m).Dropped i r := by
  obtain heq | ⟨source, heq⟩ := readAgain_cases fs tree m
  · rw [heq]
    exact hd
  · rw [heq]
    have hrecord : (tree.records.modify m.id
        fun r ↦ ⟨Source.declared source, r.generation + 1⟩)[i]? = some r := by
      rw [List.getElem?_modify_ne _ _ hm, hd.record]
    exact ⟨hrecord, hd.absent⟩

theorem of_replays {tree₀ : SourceTree} {tick : Tick} {w w' : Walk SourceTree Unit}
    {ts : List (Turn SourceTree Unit)} (hd : w.state.Dropped i r)
    (hr : Replays (tree₀.host fs) tick w ts w') (hts : ∀ t ∈ ts, t.module ∈ w.state.modules) :
    w'.state.Dropped i r := by
  induction hr with
  | nil ha => rwa [ha.state]
  | @cons w w' t ts ha _ ih =>
    rw [← ha.state] at hd hts
    rw [List.forall_mem_cons] at hts
    refine ih ?_ ((sameModules_after fs tree₀ tick t).modules ▸ hts.2)
    rw [Turn.after_state]
    split
    · exact hd
    · rw [attempt_eq]
      exact hd.readAgain (hd.absent _ hts.1)

theorem refresh (hd : tree.Dropped i r) (fs : FileSystem) : (refresh fs tree).2.1.Dropped i r where
  record := by
    obtain ⟨hlt, -⟩ := List.getElem?_eq_some_iff.mp hd.record
    exact (List.getElem?_append_left hlt).trans hd.record
  absent m hm := by
    obtain ⟨hlt, -⟩ := List.getElem?_eq_some_iff.mp hd.record
    rcases List.mem_append.mp ((List.mergeSort_perm _ _).mem_iff.mp hm) with hm | hm
    · exact hd.absent m (List.mem_filter.mp hm).1
    · have hid := List.mem_map_of_mem (f := Module.id) hm
      rw [map_id_newModules] at hid
      exact Nat.ne_of_gt (Nat.lt_of_lt_of_le hlt (List.mem_range'_1.mp hid).1)

end Dropped

theorem dropped_refresh (ht : tree.Sound) (hm : m ∈ tree.modules)
    (hgone : m ∉ (refresh fs tree).2.1.modules) :
    (refresh fs tree).2.1.Dropped m.id (tree.record m) where
  record := by
    have hlt := ht.recorded m hm
    have hrecord : tree.record m = tree.records[m.id] := by
      rw [SourceTree.record, List.getElem?_eq_getElem hlt, Option.getD_some]
    refine (List.getElem?_append_left hlt).trans ?_
    rw [hrecord, List.getElem?_eq_getElem hlt]
  absent x hx hid := by
    have hlt := ht.recorded m hm
    rcases List.mem_append.mp ((List.mergeSort_perm _ _).mem_iff.mp hx) with hkept | hnew
    · -- A module that was kept is told by its identity.
      obtain rfl := ht.eq_of_id (List.mem_filter.mp hkept).1 hm hid
      exact hgone hx
    · have hnew := List.mem_map_of_mem (f := Module.id) hnew
      rw [map_id_newModules, hid] at hnew
      exact absurd hlt (Nat.not_lt_of_le (List.mem_range'_1.mp hnew).1)

end ModuleReload.SourceTree
