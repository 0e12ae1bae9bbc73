import ModuleReload.Proofs.Engine.Reached

/-!
# What a call says

A call opens by saying which module it is for, to those who have asked for more than the standard
account. All that it says to everyone is that it reloads: a call that attempts no reload says
nothing at every verbosity. So whether a call without a reload shows anything is decided by the
verbosity alone (`Run.any_shownAt_iff`).
-/

namespace ModuleReload

variable {σ τ : Type} {h : Host σ τ}

namespace Event

theorem attempts_append (es fs : List (Event τ)) :
    attempts (es ++ fs) = attempts es ++ attempts fs :=
  List.filterMap_append

theorem notices_append (es fs : List (Event τ)) : notices (es ++ fs) = notices es ++ notices fs :=
  List.filterMap_append

end Event

/-! ## Notices of a search for dependencies -/

namespace Dependencies

theorem level_ne_always_of_mem_topLevelNames {fs : FileSystem} {m : Module} {source : Path}
    {n : Notice} (hn : n ∈ (topLevelNames fs m source).2) : n.level ≠ .always := by
  rw [topLevelNames] at hn
  split at hn
  · obtain rfl := List.mem_singleton.mp hn
    simp [unparsed]
  · rcases List.mem_cons.mp hn with rfl | hbad
    · simp [imported]
    · obtain ⟨r, -, hr⟩ := List.mem_filterMap.mp hbad
      split at hr
      · obtain rfl := Option.some.inj hr
        simp [unresolved]
      · simp at hr

theorem level_ne_always_of_mem_discover {roots : OwnedRoots} {state : σ} {m : Module} {n : Notice}
    (hn : n ∈ (discover h roots state m).2) : n.level ≠ .always := by
  rw [discover, importedNames] at hn
  rcases List.mem_append.mp hn with hn | hn
  · split at hn
    · simp at hn
    · exact level_ne_always_of_mem_topLevelNames hn
  · obtain rfl := List.mem_singleton.mp hn
    simp [found]

end Dependencies

namespace Run

theorem exists_events_childrenOf (h : Host σ τ) (m : Module) (r : Run σ τ) :
    ∃ ns : List Notice, (r.childrenOf h m).2.events = r.events ++ .asked m (r.childrenOf h m).1 ::
      ns.map .said ∧
      ∀ n ∈ ns, n.level ≠ .always := by
  rw [childrenOf]
  split
  · exact ⟨[], rfl, by simp⟩
  · exact ⟨_, rfl, fun n hn ↦ Dependencies.level_ne_always_of_mem_discover hn⟩

/-! ## Accounts of calls -/

theorem keeping_events (es : List (Event τ)) : Keeping h (fun _ ↦ True) (es <+: ·.events) where
  childrenOf m r _ hr := by
    obtain ⟨ns, heq, -⟩ := exists_events_childrenOf h m r
    rw [heq]
    exact ⟨hr.trans (List.prefix_append _ _), fun _ _ ↦ trivial⟩
  isStale m r _ hr := by
    rw [isStale_eq]
    exact hr.trans (List.prefix_append _ _)
  say _ _ _ _ _ hr := hr.trans (List.prefix_append _ _)
  tick _ hr := hr
  reloadAt tick m r _ hr := by
    obtain ⟨engine, es, heq, -⟩ := exists_reloadAt h tick m r
    rw [heq]
    exact hr.trans (List.prefix_append _ _)

theorem keeping_quiet : Keeping h (fun _ ↦ True) fun r ↦
    Event.attempts r.events = [] → ∀ n ∈ Event.notices r.events, n.level ≠ .always where
  childrenOf m r _ hr := by
    obtain ⟨ns, heq, hns⟩ := exists_events_childrenOf h m r
    refine ⟨fun hnone n hn ↦ ?_, fun _ _ ↦ trivial⟩
    rw [heq, Event.attempts_append] at hnone
    rw [heq, Event.notices_append] at hn
    rcases List.mem_append.mp hn with hn | hn
    · exact hr (List.append_eq_nil_iff.mp hnone).1 n hn
    · exact hns n (by simpa [Event.notices] using hn)
  isStale m r _ hr := by
    rw [isStale_eq]
    simpa [Event.attempts, Event.notices] using hr
  say topic level text r hlevel hr hnone n hn := by
    rw [say, log, Event.attempts_append] at hnone
    rw [say, log, Event.notices_append] at hn
    rcases List.mem_append.mp hn with hn | hn
    · exact hr (List.append_eq_nil_iff.mp hnone).1 n hn
    · obtain rfl := List.mem_singleton.mp hn
      exact hlevel
  tick _ hr := hr
  reloadAt tick m r _ _ hnone := by
    obtain ⟨engine, es, heq, -, -, -, hes⟩ := exists_reloadAt h tick m r
    rw [heq, Event.attempts_append, hes] at hnone
    exact absurd (List.append_eq_nil_iff.mp hnone).2 (by simp)

/-- What a call without an attempt at a reload shows is decided by the verbosity alone. -/
theorem any_shownAt_iff {e : Engine} {state : σ} {m : Module} {force : Bool}
    (hnone : Event.attempts ((start e state : Run σ τ).autoreload h m force).2.events = [])
    (v : Nat) :
    (Event.notices ((start e state : Run σ τ).autoreload h m force).2.events).any (·.shownAt v) =
      true ↔
      0 < v := by
  have hquiet := (keeping_quiet (h := h)).autoreload (r := start e state) (m := m) trivial force
    (by simp [start, Event.notices])
  have hopened :=
    (keeping_events (h := h) [.said ⟨"autoreload", .debug, m.name⟩]).autoreload_of_opened
      (r := start e state) (m := m) trivial force (List.prefix_append _ _)
  rw [List.any_eq_true]
  constructor
  · rintro ⟨n, hn, hshown⟩
    have hlevel := hquiet hnone n hn
    have hle : n.level.verbosity ≤ v := by simpa [Notice.shownAt] using hshown
    cases hn : n.level with
    | always => exact absurd hn hlevel
    | debug => exact Nat.lt_of_lt_of_le (by decide) (hn ▸ hle)
    | trace => exact Nat.lt_of_lt_of_le (by decide) (hn ▸ hle)
  · intro hv
    refine ⟨⟨"autoreload", .debug, m.name⟩, ?_, decide_eq_true hv⟩
    have hmem := hopened.subset (List.mem_singleton_self _)
    exact List.mem_filterMap.mpr ⟨_, hmem, rfl⟩

end Run

end ModuleReload
