import ModuleReload.Proofs.Engine.Line

/-!
# Merging what two engines remember

An engine that has been at work takes over what another one remembered. Each of them numbered its
ticks by itself, so a tick of the one says nothing about a tick of the other; but from now on they
are compared. What the engine knows already counts more than what it is given
(`Engine.times_get?_restore`).

So a module that is behind a dependency because it was never reloaded can be given a time by the
other engine that is not earlier than the one of the dependency. Its reload is due no more
(`Engine.restore_forgets_due`). This is the one way in which it happens: whatever else the two
engines know, a reload that is due stays due (`Engine.restore_keeps_due_iff`).
-/

namespace ModuleReload.Engine

theorem times_get?_restore (e old : Engine) (n : String) :
    (e.restore old).times.get? n = (e.times.get? n).or (old.times.get? n) :=
  Table.get?_merge _ _ n

variable {e : Engine} {c x : Module} {u : Tick}

/-- A module is behind another one that has a time if it has none or an earlier one. -/
theorem isBehind_iff_of_time (hc : e.times.get? c.name = some u) :
    e.isBehind x c = true ↔ ∀ v, e.times.get? x.name = some v → v < u := by
  rw [Engine.isBehind, hc, Walk.reloadedSince, Option.all_eq_true]
  exact forall₂_congr fun v _ ↦ decide_eq_true_iff

/-- **What an engine owes when it takes over from another one.** Suppose that `c` has a time, and
`x` none or an earlier one, so that `x` is behind `c`. Then `c` keeps its time. And `x` has none or
an earlier one still, and is behind `c`, unless it had none and is given one that is not earlier. -/
theorem restore_keeps_due_iff (old : Engine) (hc : e.times.get? c.name = some u)
    (hx : ∀ v, e.times.get? x.name = some v → v < u) :
    e.isBehind x c = true ∧ (e.restore old).times.get? c.name = some u ∧
      ((∀ v, (e.restore old).times.get? x.name = some v → v < u) ↔
        (e.times.get? x.name = none → ∀ v, old.times.get? x.name = some v → v < u)) ∧
      ((e.restore old).isBehind x c = true ↔
        (e.times.get? x.name = none → ∀ v, old.times.get? x.name = some v → v < u)) := by
  have hkept : (e.restore old).times.get? c.name = some u := by
    rw [times_get?_restore, hc, Option.some_or]
  have hdue : (∀ v, (e.restore old).times.get? x.name = some v → v < u) ↔
      (e.times.get? x.name = none → ∀ v, old.times.get? x.name = some v → v < u) := by
    rw [times_get?_restore]
    cases hmine : e.times.get? x.name with
    | none =>
      rw [Option.none_or]
      exact ⟨fun hgiven _ ↦ hgiven, fun hgiven ↦ hgiven rfl⟩
    | some v =>
      -- The module keeps its time, which is earlier as it was before.
      rw [Option.some_or]
      refine ⟨fun _ hnone ↦ absurd hnone (by simp), fun _ w hw ↦ ?_⟩
      obtain rfl := Option.some.inj hw
      exact hx v hmine
  exact ⟨(isBehind_iff_of_time hc).mpr hx, hkept, hdue, (isBehind_iff_of_time hkept).trans hdue⟩

/-! ## Two engines for one host -/

/-- What an engine for the tower becomes by reloading modules one after the other. -/
def reloadEach (ms : List Module) (e : Engine) : Engine :=
  ms.foldl (fun e m ↦ (Request.run (.tower []) (.start e ()) (.reload m)).engine) e

theorem Reached.reloadEach {e : Engine} (he : e.Reached) (ms : List Module) :
    (e.reloadEach ms).Reached := by
  induction ms generalizing e with
  | nil => exact he
  | cons m ms ih => exact ih (he.reload (.tower []) () m)

/-- The lower module was reloaded twice by one engine, and the upper one once by another. When the
one has taken over from the other, the upper module has a time that is earlier. -/
theorem tower_stays_due :
    let e := (new .empty).reloadEach [.base, .base]
    let old := (new .empty).reloadEach [.top]
    e.Reached ∧ old.Reached ∧ e.times.get? "top" = none ∧ old.times.get? "top" = some 1 ∧
      (e.restore old.take.1).times.get? "base" = some 2 ∧
      (∀ v, (e.restore old.take.1).times.get? "top" = some v → v < 2) ∧
      (e.restore old.take.1).isBehind .top .base = true := by
  intro e old
  have hnone : e.times.get? "top" = none := by decide
  have hx : ∀ v, e.times.get? "top" = some v → v < 2 := by
    intro v hv
    rw [hnone] at hv
    exact absurd hv (by simp)
  have hold : old.times.get? "top" = some 1 := by decide
  have hgiven : e.times.get? "top" = none → ∀ v, old.take.1.times.get? "top" = some v → v < 2 := by
    intro _ v hv
    obtain rfl : 1 = v := Option.some.inj (hold.symm.trans hv)
    decide
  obtain ⟨-, hbase, htop, hbehind⟩ := restore_keeps_due_iff old.take.1 (c := .base) (x := .top)
    (by decide) hx
  exact ⟨.reloadEach (.new _) _, .reloadEach (.new _) _, hnone, hold, hbase, htop.mpr hgiven,
    hbehind.mpr hgiven⟩

/-- Each engine has reloaded one of two modules, the one the lower and the other the upper. Before
the one takes over from the other, the upper module is due, as a call shows. Afterwards both have
the same time, and the call does nothing. -/
theorem restore_forgets_due :
    let e := (new .empty).reloadEach [.base]
    let old := (new .empty).reloadEach [.top]
    let before := ((Run.start e ()).autoreload (.tower []) .top false).2
    let after := ((Run.start (e.restore old.take.1) ()).autoreload (.tower []) .top false).2
    e.Reached ∧ old.Reached ∧ e.times.get? "base" = some 1 ∧ e.times.get? "top" = none ∧
      (e.restore old.take.1).times.get? "base" = some 1 ∧
      ¬(∀ v, (e.restore old.take.1).times.get? "top" = some v → v < 1) ∧
      Event.attempts before.events = [.top] ∧ Event.attempts after.events = [] := by
  intro e old before after
  have htop : (e.restore old.take.1).times.get? "top" = some 1 := by decide
  refine ⟨.reloadEach (.new _) _, .reloadEach (.new _) _, by decide, by decide, by decide,
    ?_, by decide, by decide⟩
  intro hdue
  exact absurd (hdue 1 htop) (Nat.lt_irrefl 1)

end ModuleReload.Engine
