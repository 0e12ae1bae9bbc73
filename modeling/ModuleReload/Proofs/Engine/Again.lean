import Mathlib.Tactic.Push
import ModuleReload.Proofs.Engine.Reached

/-!
# The same call made again

After a call, with no file changed in between, the same call made again should find nothing to do.
It does so exactly if the first call has left nothing due that the second one looks at
(`Run.autoreload_again_iff`). There are two ways to leave something.

* A module on a cycle of imports may be judged before a dependency has had its turn. If that
  dependency is reloaded later in the call and the module is not, the module is behind it.
* A reload may change the dependencies of a module, and with them what can be reached. What comes in
  was not looked at.

The first way is open with two modules that depend on each other (`Host.pair`): if one of them is
forced, the other one has had its turn by then, and the second call reloads both.
-/

namespace ModuleReload

variable {σ τ : Type} {h : Host σ τ} {tick : Tick}

namespace Visits

variable {e : Engine} {state : σ} {force : Bool} {ms : List Module} {w' : Walk σ τ}
  {ts : List (Turn σ τ)} {err : Option ReloadError}

/-- What is newer after a call was so before, and the call has not looked at its source. -/
theorem isNewer_iff_account
    (hv : Visits h tick force ms (Walk.opening (.start e state)) ts err w') (x : Module) :
    w'.engine.isNewer h.files x = true ↔
      e.isNewer h.files x = true ∧ ∀ y ∈ Event.looks w'.events, ¬y.SameSource h.files x := by
  rw [hv.replays.isNewer_iff, hv.looks_eq, List.forall_mem_map]
  rfl

/-- A module is behind another one after a call with a new tick if the call has not reloaded it, and
has reloaded the other one or left it behind. -/
theorem isBehind_iff_account
    (hv : Visits h tick force ms (Walk.opening (.start e state)) ts err w')
    (htick : ∀ n u, e.times.get? n = some u → u < tick) (x c : Module) :
    w'.engine.isBehind x c = true ↔
      x.name ∉ (Event.reloads w'.events).map Module.name ∧
        (c.name ∈ (Event.reloads w'.events).map Module.name ∨ e.isBehind x c = true) := by
  rw [hv.replays.isBehind_iff htick, hv.mem_reloads_iff, hv.mem_reloads_iff, Bool.not_eq_true]
  rfl

/-- A call leaves no news of a source that it has looked at, and makes none. -/
theorem isNewer_eq_false_iff
    (hv : Visits h tick force ms (Walk.opening (.start e state)) ts err w') (x : Module) :
    w'.engine.isNewer h.files x = false ↔
      (e.isNewer h.files x = true → ∃ y ∈ Event.looks w'.events, y.SameSource h.files x) := by
  rw [← Bool.not_eq_true, hv.isNewer_iff_account]
  push Not
  rfl

/-- A call with a new tick leaves a module behind none of the given ones exactly if it has reloaded
the module, or else none of them, and the module was behind none before. -/
theorem forall_isBehind_eq_false_iff
    (hv : Visits h tick force ms (Walk.opening (.start e state)) ts err w')
    (htick : ∀ n u, e.times.get? n = some u → u < tick) (x : Module) (children : List Module) :
    (∀ c ∈ children, w'.engine.isBehind x c = false) ↔
      x.name ∈ (Event.reloads w'.events).map Module.name ∨
        ∀ c ∈ children, c.name ∉ (Event.reloads w'.events).map Module.name ∧
          e.isBehind x c = false := by
  simp only [← Bool.not_eq_true, hv.isBehind_iff_account htick]
  by_cases hx : x.name ∈ (Event.reloads w'.events).map Module.name
  · simp only [hx, not_true_eq_false, false_and, not_false_eq_true, implies_true, true_or]
  · simp only [hx, not_false_eq_true, true_and, not_or, false_or]

end Visits

namespace Run

/-- **When the same call made again does nothing.** Whatever the second call looks at had no news
for it, or its source was looked at in the first call; and it was reloaded in the first call, or
none of its dependencies was and it was behind none of them before. -/
theorem autoreload_again_iff {e : Engine} (he : e.Reached) {state : σ} {m : Module} {force : Bool}
    {first second : Except ReloadError Bool × Run σ τ}
    (hfirst : (start e state).autoreload h m force = first)
    (hsecond : (start first.2.engine first.2.state).autoreload h m false = second) :
    (second.1 = .ok false ∧ Event.attempts second.2.events = []) ↔
      ∀ x ∈ Event.looks second.2.events,
        (e.isNewer h.files x = true →
          ∃ y ∈ Event.looks first.2.events, y.SameSource h.files x) ∧
        (x.name ∈ (Event.reloads first.2.events).map Module.name ∨
          ∀ c ∈ first.2.engine.childrenOf h first.2.state x,
            c.name ∉ (Event.reloads first.2.events).map Module.name ∧ e.isBehind x c = false) := by
  obtain ⟨ts, err, w', hv, heq⟩ := exists_visits (h := h) (r := start e state) he.clocked m force
  obtain rfl := hfirst.symm.trans heq
  have hclock : w'.engine.Clocked := by
    have hreached := he.autoreload h state m force
    rw [heq] at hreached
    exact hreached.clocked
  rw [← hsecond, autoreload_eq_ok_false_iff hclock]
  refine forall₂_congr fun x _ ↦ ?_
  rw [Engine.isDue_eq_false, hv.isNewer_eq_false_iff,
    hv.forall_isBehind_eq_false_iff he.lt_succ_clock]

/-- Of two modules that depend on each other, the one that is judged first is left behind. -/
theorem pair_again_reloads :
    let first := (start (.new .empty) ()).autoreload Host.pair .left true
    (Engine.new .empty).Reached ∧ first.1 = .ok true ∧
      ¬(((start first.2.engine first.2.state).autoreload .pair .left false).1 = .ok false ∧
        Event.attempts
          ((start first.2.engine first.2.state).autoreload .pair .left false).2.events = []) := by
  refine ⟨.new _, by rfl, fun hidle ↦ ?_⟩
  have hleft := ((autoreload_again_iff (.new .empty) rfl rfl).mp hidle .right (by decide)).2
  rcases hleft with hreloaded | hnone
  · exact absurd hreloaded (by decide)
  · exact absurd (hnone .left (by decide)).1 (by decide)

end Run

end ModuleReload
