import ModuleReload.Proofs.Engine.Line

/-!
# Marks on the reload clock

Whoever wants to know what is reloaded from some moment on reads the clock, and later asks for the
modules with a later time. That is right whatever happens in between, because the clock never goes
back and no module is given a time that the clock has shown before (`ReloadTimes.Follows`): what was
reloaded since has a later time than the mark, and what was not has the time that it had, which the
clock had shown already (`ReloadTimes.Follows.mem_after_iff`). A call that fails has advanced the
clock, and what it reloaded before is among what was reloaded.

Only an engine that takes over from others can be given times that no clock of its own has shown.
They are on the clock all the same, since it takes over the later one of the two clocks.
-/

namespace ModuleReload

namespace ReloadTimes

variable {r r' r'' : ReloadTimes} {names names' : List String}

theorem Sound.exists_now (hr : r.Sound) {n : String} {u : Tick} (hu : r.get? n = some u) :
    ∃ t, r.now? = some t ∧ u ≤ t := by
  obtain ⟨hpos, hle⟩ := hr n u hu
  have hclock : r.clock ≠ 0 := Nat.ne_of_gt (Nat.lt_of_lt_of_le hpos hle)
  exact ⟨r.clock, if_neg hclock, hle⟩

/-- The clock does not go back, and no module loses its time or is given an earlier one. -/
structure Rises (r r' : ReloadTimes) : Prop where
  clock : r.clock ≤ r'.clock
  times : ∀ n u, r.get? n = some u → ∃ v, r'.get? n = some v ∧ u ≤ v

theorem rises_merge (r s : ReloadTimes) : r.Rises (r.merge s) where
  clock := Nat.le_max_left _ _
  times n u hu := by
    have hkept : (r.merge s).get? n = some u := by
      rw [get?] at hu
      rw [get?, merge, Table.get?_merge, hu, Option.some_or]
    exact ⟨u, hkept, Nat.le_refl u⟩

namespace Follows

theorem trans (h : r.Follows names r') (h' : r'.Follows names' r'') :
    r.Follows (names ++ names') r'' where
  clock := Nat.le_trans h.clock h'.clock
  reloaded n hn := by
    by_cases hagain : n ∈ names'
    · obtain ⟨u, hu, hlt⟩ := h'.reloaded n hagain
      exact ⟨u, hu, Nat.lt_of_le_of_lt h.clock hlt⟩
    · rw [h'.others n hagain]
      exact h.reloaded n ((List.mem_append.mp hn).resolve_right hagain)
  others n hn := by
    rw [List.mem_append, not_or] at hn
    rw [h'.others n hn.2, h.others n hn.1]

variable (hclock : ∀ n u, r.get? n = some u → u ≤ r.clock)

include hclock

theorem rises (h : r.Follows names r') : r.Rises r' where
  clock := h.clock
  times n u hu := by
    by_cases hn : n ∈ names
    · obtain ⟨v, hv, hlt⟩ := h.reloaded n hn
      exact ⟨v, hv, Nat.le_of_lt (Nat.lt_of_le_of_lt (hclock n u hu) hlt)⟩
    · exact ⟨u, by rw [h.others n hn, hu], Nat.le_refl u⟩

/-- **What a mark tells.** The modules with a later time than the clock showed are those that have
been reloaded since. -/
theorem mem_after_iff (h : r.Follows names r') (hr' : r'.Sound) {n : String} :
    n ∈ r'.after r.now? ↔ n ∈ names := by
  rw [ReloadTimes.mem_after_iff hr']
  constructor
  · rintro ⟨u, hu, hlt⟩
    by_contra hn
    rw [h.others n hn] at hu
    exact absurd hlt (Nat.not_lt_of_le (hclock n u hu))
  · exact h.reloaded n

end Follows

end ReloadTimes

namespace Engine

variable {e e' : Engine} {names : List String}

/-! ## Operations -/

/-- What an engine becomes by an operation that takes nothing out of it. It may be given what has
been taken out of another one. -/
inductive Operation : Engine → Engine → Prop
  | step {e e' : Engine} {names : List String} (hs : Step e names e') : Operation e e'
  | restore (old e : Engine) : Operation e (e.restore old)

theorem Operation.rises (ho : Operation e e') (hclock : e.Clocked) : e.times.Rises e'.times := by
  cases ho with
  | step hs => exact (hs.follows hclock).rises hclock
  | restore old => exact e.times.rises_merge old.times

/-! ## Steps in a row -/

/-- Steps in the history of an engine, one after the other, with the names of the modules that were
reloaded in them. -/
inductive Steps : Engine → List String → Engine → Prop
  | done (e : Engine) : Steps e [] e
  | step {e e₁ e' : Engine} {names names' : List String} (hrest : Steps e names e₁)
      (hs : Step e₁ names' e') : Steps e (names ++ names') e'

namespace Steps

theorem reached (hs : Steps e names e') (he : e.Reached) : e'.Reached := by
  induction hs with
  | done => exact he
  | step _ hs ih => exact hs.reached ih

theorem follows (hs : Steps e names e') (he : e.Reached) : e.times.Follows names e'.times := by
  induction hs with
  | done => exact .of_eq rfl
  | step hrest hs ih => exact ih.trans (hs.follows (hrest.reached he).clocked)

/-- The engine lists what has been reloaded since the mark, in strictly ascending order. -/
theorem after_mark (hs : Steps e names e') (he : e.Reached) :
    (e'.times.after e.clock?).Pairwise (· < ·) ∧ ∀ n, n ∈ e'.times.after e.clock? ↔ n ∈ names :=
  ⟨ReloadTimes.pairwise_namesWhere _ _, fun _ ↦
    (hs.follows he).mem_after_iff he.clocked (hs.reached he).sound⟩

end Steps

end Engine

end ModuleReload
