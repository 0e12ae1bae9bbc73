import ModuleReload.Proofs.Engine.Account

/-!
# Sketched hosts

A host that is given by a table: each module declares certain names, some of them cannot be
reloaded, none has a source, and nothing is kept around a reload. Calls of such a host can be
followed by evaluation. What they need to know of it holds of all of them: modules are told apart by
their names (`Engine.OneHandle.of_nodup`), and a reload changes nothing that another module declares
(`Host.separate_sketch`).

What turns on the times of sources is followed on a file system with a single source
(`FileSystem.lone`), which imports nothing.
-/

namespace ModuleReload

namespace Module

def top : Module := ⟨2, "top", none, none⟩

/-- A module on which others depend. -/
def base : Module := ⟨3, "base", none, none⟩

end Module

/-- The host of the modules in a table, with the names that each declares. The reload of some of
them fails. -/
def Host.sketch (rows : List (Module × List String)) (fails : List Module) : Host Unit Unit where
  files := .empty
  modules := rows.map Prod.fst
  declares _ m := (rows.lookup m).getD []
  save _ _ := (none, ())
  reinitialize _ m := (if m ∈ fails then some "refused" else none, ())
  restore _ _ _ := ()

theorem Host.separate_sketch (rows : List (Module × List String)) (fails : List Module)
    (P : Module → Prop) : (sketch rows fails).Separate P :=
  fun _ _ _ _ _ _ ↦ rfl

/-- An engine that has reloaded one module, and knows nothing else. -/
def Engine.reloadedOnce (name : String) : Engine :=
  ⟨.empty, .empty, .empty, ⟨⟨[(name, 1)], by simp⟩, 1⟩⟩

theorem Engine.clocked_reloadedOnce (name : String) : (reloadedOnce name).Clocked := by
  intro n u hu
  have hentry : [(name, 1)].lookup n = some u := hu
  rw [List.lookup_cons] at hentry
  split at hentry
  · obtain rfl := Option.some.inj hentry
    exact Nat.le_refl _
  · simp at hentry

/-- The handles at hand are among given ones if the loaded modules and all remembered dependencies
are. -/
theorem Engine.Holds.mem {σ τ : Type} {h : Host σ τ} {m a : Module} {e : Engine}
    {given : List Module} (ha : e.Holds h m a) (hm : m ∈ given)
    (hmodules : ∀ c ∈ h.modules, c ∈ given)
    (hlists : ∀ entry ∈ e.dependencies.entries, ∀ c ∈ entry.2, c ∈ given) : a ∈ given := by
  rcases ha with rfl | ha | ⟨n, children, hn, ha⟩
  · exact hm
  · exact hmodules a ha
  · exact hlists (n, children) (Table.mem_entries_of_get? hn) a ha

/-- If all remembered dependencies are loaded, then no other handles are at hand than those of the
host. -/
theorem Engine.Holds.mem_modules {σ τ : Type} {h : Host σ τ} {m a : Module} {e : Engine}
    (ha : e.Holds h m a) (hm : m ∈ h.modules)
    (hlists : ∀ entry ∈ e.dependencies.entries, ∀ c ∈ entry.2, c ∈ h.modules) : a ∈ h.modules :=
  ha.mem hm (fun _ hc ↦ hc) hlists

/-- An engine that remembers no dependencies holds one handle of each name if the host does. -/
theorem Engine.OneHandle.of_nodup {σ τ : Type} {h : Host σ τ} {m : Module} {e : Engine}
    (hm : m ∈ h.modules) (hnodup : (h.modules.map Module.name).Nodup)
    (hempty : e.dependencies = .empty) : e.OneHandle h m := by
  have hlists : ∀ entry ∈ e.dependencies.entries, ∀ c ∈ entry.2, c ∈ h.modules := by
    simp [hempty, Table.empty]
  intro a b ha hb hname
  exact List.inj_on_of_nodup_map hnodup (ha.mem_modules hm hlists) (hb.mem_modules hm hlists) hname

/-- No cycle goes through a set of modules whose dependencies lie in the set and rank lower. -/
theorem Module.acyclic_of_rank {P : Module → Prop} {K : Module → List Module} (rank : Module → Nat)
    (hP : ∀ x, P x → ∀ c ∈ K x, P c ∧ rank c < rank x) {x : Module} (hx : P x) :
    ¬Relation.TransGen (fun a b ↦ b ∈ K a) x x := by
  have hlower {y : Module} (hpath : Relation.TransGen (fun a b ↦ b ∈ K a) x y) :
      P y ∧ rank y < rank x := by
    induction hpath with
    | single hc => exact hP x hx _ hc
    | tail _ hc ih =>
      obtain ⟨hy, hlt⟩ := hP _ ih.1 _ hc
      exact ⟨hy, Nat.lt_trans hlt ih.2⟩
  intro hcycle
  exact absurd (hlower hcycle).2 (Nat.lt_irrefl _)

/-! ## A source alone -/

/-- A directory with one source, which is empty and was last modified at the given time. -/
def FileSystem.lone (t : FileSystem.Instant) : FileSystem :=
  ⟨[(["w"], .directory 0), (["w", "a.py"], .file (.text "") t)], .root⟩

abbrev Path.lone : Path := ⟨true, ["w", "a.py"]⟩

def Module.lone : Module := ⟨0, "a", some .lone, none⟩

end ModuleReload
