import ModuleReload.Engine.Handover
import ModuleReload.Proofs.Engine.Doing
import ModuleReload.Proofs.Engine.Idle
import ModuleReload.Proofs.Engine.Keeping
import ModuleReload.Proofs.Freshness.Clock

/-!
# Engines that have come about

`Engine.Reached` holds of the engines that a new one can become by its operations, in any order, for
any hosts and with anything happening to files and hosts in between. Whatever has been done to it,
no module bears a tick that its clock has not handed out (`Reached.sound`, `Reached.clocked`). So
every call of such an engine is known by its visits.
-/

namespace ModuleReload

variable {σ τ : Type} {h : Host σ τ}

/-! ## What operations do -/

theorem Run.isOutdated_inquires (m : Module) (recursive : Bool) (r : Run σ τ) :
    r.Inquires (r.isOutdated h m recursive).2 := by
  have hasking : Asking h (fun _ ↦ True) r.Inquires := by
    refine ⟨fun m r' _ hr' ↦ ⟨?_, fun _ _ ↦ trivial⟩, fun m r' _ hr' ↦ hr'.trans (.isStale h m r')⟩
    exact hr'.trans (.of_asks (Walk.asks_childrenOf h m r'))
  exact hasking.isOutdated trivial recursive (.refl r)

/-- A reload that succeeds records its tick for the module, and one that fails records nothing. -/
theorem Run.reloadAt_cases (tick : Tick) (m : Module) (r : Run σ τ) :
    ((r.reloadAt h tick m).2.engine.times = r.engine.times ∧
      Event.reloads (r.reloadAt h tick m).2.events = Event.reloads r.events) ∨
    ((r.reloadAt h tick m).2.engine.times = r.engine.times.record m.name tick ∧
      Event.reloads (r.reloadAt h tick m).2.events = Event.reloads r.events ++ [m]) := by
  obtain ⟨cause, state, heq⟩ : ∃ cause state,
    h.reinitialize (h.save r.state m).2 m = (cause, state) := ⟨_, _, rfl⟩
  simp only [reloadAt, say, log, heq]
  cases cause with
  | none => exact .inr ⟨rfl, by simp [Event.reloads]⟩
  | some cause => exact .inl ⟨rfl, by simp [Event.reloads]⟩

/-- Whether or not it succeeds, a reload is one attempt of the host, and the dependencies of its
module are forgotten. -/
theorem Run.exists_reloadAt (h : Host σ τ) (tick : Tick) (m : Module) (r : Run σ τ) :
    ∃ engine es, (r.reloadAt h tick m).2 = ⟨engine, (h.attempt r.state m).2, r.events ++ es⟩ ∧
      engine.roots = r.engine.roots ∧ engine.dependencies = r.engine.dependencies.erase m.name ∧
      Event.findings es = [] ∧ Event.attempts es = [m] := by
  obtain ⟨cause, state, heq⟩ : ∃ cause state,
    h.reinitialize (h.save r.state m).2 m = (cause, state) := ⟨_, _, rfl⟩
  let engine : Engine := { r.engine with dependencies := r.engine.dependencies.erase m.name }
  let said : Event τ := .said ⟨"reload", .always, "reloading " ++ m.name⟩
  let snapshot := (h.save r.state m).1
  simp only [reloadAt, say, log, heq, Host.attempt]
  cases cause with
  | none =>
    exact ⟨noteReload h tick m engine,
      [said, .saved m snapshot, .reinitialized m, .restored m snapshot],
      by simp [engine, said, snapshot], rfl, rfl, rfl, rfl⟩
  | some cause =>
    exact ⟨engine, [said, .saved m snapshot, .failed m], by simp [engine, said, snapshot], rfl, rfl,
      rfl, rfl⟩

/-! ## Times on the clock -/

theorem Run.autoreload_sound {r : Run σ τ} (hr : r.engine.times.Sound) (m : Module) (force : Bool) :
    (r.autoreload h m force).2.engine.times.Sound := by
  obtain ⟨ts, err, w', hv, heq⟩ := exists_visits (h := h) (r := r) (fun n u hu ↦ (hr n u hu).2) m
    force
  rw [heq]
  intro n u hu
  have hclock : w'.engine.times.clock = r.engine.times.clock + 1 := hv.replays.clock_eq
  rw [hv.replays.times_get?] at hu
  rw [hclock]
  split at hu
  · obtain rfl := Option.some.inj hu
    exact ⟨Nat.succ_pos _, Nat.le_refl _⟩
  · obtain ⟨hpos, hle⟩ := hr n u hu
    exact ⟨hpos, Nat.le_succ_of_le hle⟩

/-! ## Reached engines -/

namespace Engine

/-- The engines that a new one can become. -/
inductive Reached : Engine → Prop
  | new (roots : OwnedRoots) : Reached (.new roots)
  | childrenOf {σ τ : Type} (h : Host σ τ) (state : σ) (m : Module) {e : Engine} (he : Reached e) :
      Reached ((Run.start e state : Run σ τ).childrenOf h m).2.engine
  | isStale {σ τ : Type} (h : Host σ τ) (state : σ) (m : Module) {e : Engine} (he : Reached e) :
      Reached ((Run.start e state : Run σ τ).isStale h m).2.engine
  | isOutdated {σ τ : Type} (h : Host σ τ) (state : σ) (m : Module) (recursive : Bool) {e : Engine}
      (he : Reached e) : Reached ((Run.start e state : Run σ τ).isOutdated h m recursive).2.engine
  | reload {σ τ : Type} (h : Host σ τ) (state : σ) (m : Module) {e : Engine} (he : Reached e) :
      Reached ((Run.start e state : Run σ τ).reload h m).2.engine
  | autoreload {σ τ : Type} (h : Host σ τ) (state : σ) (m : Module) (force : Bool) {e : Engine}
      (he : Reached e) : Reached ((Run.start e state : Run σ τ).autoreload h m force).2.engine
  | setRoots (roots : OwnedRoots) {e : Engine} (he : Reached e) : Reached (e.setRoots roots)
  | forgetDependencies {e : Engine} (he : Reached e) : Reached e.forgetDependencies
  | take {e : Engine} (he : Reached e) : Reached e.take.2
  | restore {e old : Engine} (he : Reached e) (hold : Reached old) : Reached (e.restore old)

namespace Reached

variable {e : Engine}

theorem sound (he : e.Reached) : e.times.Sound := by
  induction he with
  | new roots => exact .empty
  | childrenOf h state m _ ih =>
    rw [(Walk.asks_childrenOf h m (Run.start _ state)).times]
    exact ih
  | isStale h state m _ ih =>
    rw [Run.isStale_eq]
    exact ih
  | isOutdated h state m recursive _ ih =>
    rw [(Run.isOutdated_inquires m recursive _).times]
    exact ih
  | reload h state m _ ih =>
    rw [Run.reload]
    rcases Run.reloadAt_cases _ m (Run.start _ state).tick.2 with ⟨htimes, -⟩ | ⟨htimes, -⟩
    · exact htimes ▸ ih.tick
    · exact htimes ▸ ih.tick.record (Nat.succ_pos _) (Nat.le_refl _)
  | autoreload h state m force _ ih => exact Run.autoreload_sound ih m force
  | @setRoots roots e _ ih =>
    rw [Engine.setRoots]
    split
    · exact ih
    · exact ih
  | forgetDependencies _ ih => exact ih
  | take _ _ => exact .empty
  | restore _ _ ih ihold => exact ih.merge ihold

theorem clocked (he : e.Reached) : e.Clocked :=
  fun n u hu ↦ (he.sound n u hu).2

theorem lt_succ_clock (he : e.Reached) (n : String) (u : Tick) (hu : e.times.get? n = some u) :
    u < e.times.clock + 1 :=
  he.clocked.lt_succ n u hu

theorem of_call {state : σ} {m : Module} {force : Bool} {result : Except ReloadError Bool}
    {r : Run σ τ} (he : e.Reached)
    (hcall : (Run.start e state).autoreload h m force = (result, r)) : r.engine.Reached := by
  have hreached := he.autoreload h state m force
  rw [hcall] at hreached
  exact hreached

end Reached

end Engine

end ModuleReload
