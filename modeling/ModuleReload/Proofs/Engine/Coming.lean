import ModuleReload.Proofs.Engine.Replay

/-!
# Coming to a module

A walk that has come to a module for the first time asks for its dependencies, and counts the module
as visited from then on (`Walk.entering`). That is the only thing by which the account tells where a
walk has been: it holds the dependencies found for each module (`Event.findings`), each name once,
for no name is come to twice (`Walk.Tells`).
-/

namespace ModuleReload

variable {σ τ : Type} {h : Host σ τ} {tick : Tick}

namespace Walk

/-- The walk after notices have been written. -/
def noted (ns : List Notice) (w : Walk σ τ) : Walk σ τ :=
  w.put (w.toRun.log (ns.map .said))

/-- The walk when it has come to a module: notices have been written, the module is visited, and its
dependencies are known. -/
def entering (h : Host σ τ) (ns : List Notice) (m : Module) (w : Walk σ τ) : Walk σ τ :=
  (w.put (Run.childrenOf h m (w.noted ns).toRun).2).visiting m

@[simp] theorem noted_visited (ns : List Notice) (w : Walk σ τ) :
    (w.noted ns).visited = w.visited := rfl

@[simp] theorem noted_engine (ns : List Notice) (w : Walk σ τ) :
    (w.noted ns).engine = w.engine := rfl

theorem noted_noted (ns ms : List Notice) (w : Walk σ τ) :
    (w.noted ns).noted ms = w.noted (ns ++ ms) := by
  simp [noted, put, Run.log]

theorem noted_nil (w : Walk σ τ) : w.noted [] = w := by
  simp [noted, put, Run.log]

theorem asks_noted (ns : List Notice) (w : Walk σ τ) : w.Asks (w.noted ns).toRun :=
  Run.Asks.log _ ns

theorem childrenOf_fst (h : Host σ τ) (m : Module) (r : Run σ τ) :
    (r.childrenOf h m).1 = r.engine.childrenOf h r.state m := by
  rw [Run.childrenOf, Engine.childrenOf]
  cases r.engine.dependencies.get? m.name <;> rfl

theorem asks_childrenOf (h : Host σ τ) (m : Module) (r : Run σ τ) :
    r.Asks (r.childrenOf h m).2 := by
  obtain ⟨children, notices, hfound⟩ : ∃ children notices,
    Dependencies.discover h r.engine.roots r.state m = (children, notices) := ⟨_, _, rfl⟩
  rw [Run.childrenOf, hfound]
  split
  · next children _ =>
    exact ⟨rfl, rfl, rfl, rfl, [.asked m children], rfl, by simp [Event.isTalk]⟩
  · refine ⟨rfl, rfl, rfl, rfl, .asked m children :: notices.map .said, rfl, ?_⟩
    simp [Event.isTalk]

theorem childrenOf_dependencies_get? (h : Host σ τ) (m : Module) (r : Run σ τ) (n : String) :
    (r.childrenOf h m).2.engine.dependencies.get? n =
      if n = m.name then some (r.engine.childrenOf h r.state m)
      else r.engine.dependencies.get? n := by
  rw [Run.childrenOf, Engine.childrenOf]
  simp only [Run.log]
  cases hm : r.engine.dependencies.get? m.name with
  | some children =>
    by_cases hn : n = m.name
    · simp [hn, hm]
    · simp [hn]
  | none => simp [Table.get?_insert]

variable (h) in
theorem asks_entering (ns : List Notice) (m : Module) (w : Walk σ τ) :
    w.Asks (w.entering h ns m).toRun :=
  (asks_noted ns w).trans (asks_childrenOf h m _)

@[simp] theorem entering_visited (ns : List Notice) (m : Module) (w : Walk σ τ) :
    (w.entering h ns m).visited = m.name :: w.visited := rfl

@[simp] theorem entering_state (ns : List Notice) (m : Module) (w : Walk σ τ) :
    (w.entering h ns m).state = w.state :=
  (asks_entering h ns m w).state

@[simp] theorem entering_times (ns : List Notice) (m : Module) (w : Walk σ τ) :
    (w.entering h ns m).engine.times = w.engine.times :=
  (asks_entering h ns m w).times

@[simp] theorem entering_roots (ns : List Notice) (m : Module) (w : Walk σ τ) :
    (w.entering h ns m).engine.roots = w.engine.roots :=
  (asks_entering h ns m w).roots

/-- Coming to a module makes its dependencies known and leaves those of others alone. -/
theorem entering_dependencies_get? (ns : List Notice) (m : Module) (w : Walk σ τ) (n : String) :
    (w.entering h ns m).engine.dependencies.get? n =
      if n = m.name then some (w.engine.childrenOf h w.state m)
      else w.engine.dependencies.get? n :=
  childrenOf_dependencies_get? h m (w.noted ns).toRun n

theorem entering_noted (ns ms : List Notice) (m : Module) (w : Walk σ τ) :
    (w.noted ns).entering h ms m = w.entering h (ns ++ ms) m := by
  rw [entering, entering, noted_noted]
  rfl

end Walk

/-! ## Lists in the account -/

/-- The dependencies in an account are those that `K` says. -/
def Event.Finds (K : Module → List Module) (es : List (Event τ)) : Prop :=
  ∀ x children, .asked x children ∈ es → children = K x

namespace Walk

theorem findings_childrenOf (h : Host σ τ) (m : Module) (r : Run σ τ) :
    Event.findings (r.childrenOf h m).2.events =
      Event.findings r.events ++ [(m, r.engine.childrenOf h r.state m)] := by
  obtain ⟨children, notices, hfound⟩ : ∃ children notices,
    Dependencies.discover h r.engine.roots r.state m = (children, notices) := ⟨_, _, rfl⟩
  rw [Run.childrenOf, Engine.childrenOf, hfound]
  cases r.engine.dependencies.get? m.name with
  | some children => simp [Run.log, Event.findings]
  | none =>
    have hasked : Event.findings (.asked m children :: notices.map (Event.said (τ := τ))) =
        (m, children) :: Event.findings (notices.map .said) := rfl
    simp [Run.log, hasked]

@[simp] theorem findings_noted (ns : List Notice) (w : Walk σ τ) :
    Event.findings (w.noted ns).events = Event.findings w.events := by
  simp [noted, put, Run.log]

theorem findings_entering (ns : List Notice) (m : Module) (w : Walk σ τ) :
    Event.findings (w.entering h ns m).events =
      Event.findings w.events ++ [(m, w.engine.childrenOf h w.state m)] := by
  rw [← findings_noted ns w]
  exact findings_childrenOf h m (w.noted ns).toRun

/-- Every module in the account has been visited, and none is in it twice. -/
structure Tells (w : Walk σ τ) : Prop where
  visited : ∀ p ∈ Event.findings w.events, p.1.name ∈ w.visited
  nodup : ((Event.findings w.events).map fun p ↦ p.1.name).Nodup

theorem Tells.entering {w : Walk σ τ} (hw : w.Tells) (ns : List Notice) {m : Module}
    (hnew : m.name ∉ w.visited) : (w.entering h ns m).Tells where
  visited p hp := by
    rw [findings_entering] at hp
    rcases List.mem_append.mp hp with hold | hlast
    · exact List.mem_cons_of_mem _ (hw.visited p hold)
    · obtain rfl := List.mem_singleton.mp hlast
      exact List.mem_cons_self
  nodup := by
    rw [findings_entering, List.map_append, List.nodup_append]
    refine ⟨hw.nodup, by simp, ?_⟩
    rintro n hn n' hn' rfl
    obtain ⟨p, hp, rfl⟩ := List.mem_map.mp hn
    rw [List.map_singleton, List.mem_singleton] at hn'
    exact hnew (hn' ▸ hw.visited p hp)

end Walk

end ModuleReload
