import ModuleReload.Proofs.Engine.Reached
import ModuleReload.Proofs.Engine.Sketch

/-!
# Lines of engines

An engine is asked for this and that, fails at times, and is replaced by a new one that takes over
what it remembers. `Engine.Line` is the history of such a line of engines: for each step, the names
of the modules that were reloaded in it. Between two steps anything may happen to files and hosts.

However long the line is, a module that was not reloaded since one of its dependencies was is known
to be behind it. A step gives the modules that it reloads a time later than the clock before it, and
leaves all other times alone (`ReloadTimes.Follows`); so what the clock showed before a step is a
mark that lies between the two from then on (`Engine.Line.exists_mark`). As soon as a call comes to
the module, it makes up for the reload (`Engine.Line.mem_attempts_autoreload`).
-/

namespace ModuleReload

variable {σ τ : Type} {h : Host σ τ} {tick : Tick}

/-- The times after modules of certain names have been reloaded: these have a time that the clock
had not shown before, and all others have the one they had. -/
structure ReloadTimes.Follows (names : List String) (r r' : ReloadTimes) : Prop where
  clock : r.clock ≤ r'.clock
  reloaded : ∀ n ∈ names, ∃ u, r'.get? n = some u ∧ r.clock < u
  others : ∀ n ∉ names, r'.get? n = r.get? n

namespace ReloadTimes.Follows

variable {names : List String} {r r' : ReloadTimes}

theorem of_eq (htimes : r' = r) : r.Follows [] r' where
  clock := Nat.le_of_eq (by rw [htimes])
  reloaded := by simp
  others n _ := by rw [htimes]

theorem of_tick (hclock : r'.clock = r.clock + 1)
    (hget : ∀ n, r'.get? n = if n ∈ names then some (r.clock + 1) else r.get? n) :
    r.Follows names r' where
  clock := by omega
  reloaded n hn := ⟨r.clock + 1, by rw [hget, if_pos hn], Nat.lt_succ_self _⟩
  others n hn := by rw [hget, if_neg hn]

end ReloadTimes.Follows

/-- The names of the modules that a run has reloaded. -/
def Run.reloaded (r : Run σ τ) : List String :=
  (Event.reloads r.events).map Module.name

namespace Engine

/-! ## Requests -/

/-- What an engine can be asked to do for a host. -/
inductive Request
  | childrenOf (m : Module)
  | isStale (m : Module)
  | isOutdated (m : Module) (recursive : Bool)
  | reload (m : Module)
  | autoreload (m : Module) (force : Bool)

def Request.run (h : Host σ τ) (r : Run σ τ) : Request → Run σ τ
  | childrenOf m => (r.childrenOf h m).2
  | isStale m => (r.isStale h m).2
  | isOutdated m recursive => (r.isOutdated h m recursive).2
  | reload m => (r.reload h m).2
  | autoreload m force => (r.autoreload h m force).2

variable {e e' : Engine} {names : List String}

theorem Request.reached (he : e.Reached) (h : Host σ τ) (state : σ) (request : Request) :
    (request.run h (.start e state)).engine.Reached := by
  cases request with
  | childrenOf m => exact he.childrenOf h state m
  | isStale m => exact he.isStale h state m
  | isOutdated m recursive => exact he.isOutdated h state m recursive
  | reload m => exact he.reload h state m
  | autoreload m force => exact he.autoreload h state m force

/-- **What a request does to times.** Only modules that are reloaded have their time changed, to one
that is later than all before. -/
theorem Request.follows (hclock : e.Clocked) (h : Host σ τ) (state : σ) (request : Request) :
    e.times.Follows (request.run h (.start e state)).reloaded
      (request.run h (.start e state)).engine.times := by
  have hcalm {r : Run σ τ} (htimes : r.engine.times = e.times)
      (hnone : Event.reloads r.events = []) : e.times.Follows r.reloaded r.engine.times := by
    rw [Run.reloaded, hnone]
    exact .of_eq htimes
  cases request with
  | childrenOf m =>
    have hasks := Walk.asks_childrenOf h m (.start e state)
    exact hcalm hasks.times hasks.reloads
  | isStale m =>
    rw [Request.run, Run.isStale_eq]
    exact hcalm rfl rfl
  | isOutdated m recursive =>
    have hinquires := Run.isOutdated_inquires (h := h) m recursive (.start e state)
    exact hcalm hinquires.times hinquires.reloads
  | reload m =>
    have heq : Request.run h (.start e state) (.reload m) =
      ((Run.start e state).tick.2.reloadAt h (e.times.clock + 1) m).2 := rfl
    rw [heq]
    obtain ⟨htimes, hreloads⟩ | ⟨htimes, hreloads⟩ :=
      Run.reloadAt_cases (h := h) (e.times.clock + 1) m (Run.start e state).tick.2
    · rw [Run.reloaded, hreloads, htimes]
      exact .of_tick rfl fun n ↦ (if_neg List.not_mem_nil).symm
    · rw [Run.reloaded, hreloads, htimes]
      refine .of_tick rfl fun n ↦ (Table.get?_insert _ _ _ _).trans ?_
      exact if_congr List.mem_singleton.symm rfl rfl
  | autoreload m force =>
    obtain ⟨ts, err, w', hv, heq⟩ := Run.exists_visits (h := h) (r := .start e state) hclock m force
    rw [Request.run, heq]
    refine .of_tick hv.replays.clock_eq fun n ↦ ?_
    rw [hv.replays.times_get?]
    exact if_congr hv.mem_reloads_iff.symm rfl rfl

/-! ## Steps -/

/-- One step in the history of an engine: what it becomes, and the names of the modules that are
reloaded in the step. In a handover, a new engine with any roots takes the place of the old one. -/
inductive Step : Engine → List String → Engine → Prop
  | request {σ τ : Type} (h : Host σ τ) (state : σ) (request : Request) (e : Engine) :
      Step e (request.run h (.start e state)).reloaded (request.run h (.start e state)).engine
  | setRoots (roots : OwnedRoots) (e : Engine) : Step e [] (e.setRoots roots)
  | forgetDependencies (e : Engine) : Step e [] e.forgetDependencies
  | handOver (roots : OwnedRoots) (e : Engine) : Step e [] ((Engine.new roots).restore e.take.1)

theorem Step.reached (hs : Step e names e') (he : e.Reached) : e'.Reached := by
  cases hs with
  | request h state request => exact request.reached he h state
  | setRoots roots => exact he.setRoots roots
  | forgetDependencies => exact he.forgetDependencies
  | handOver roots => exact .restore (.new roots) he

/-- Of all steps, only requests change times. A handover passes them on, with the clock. -/
theorem Step.follows (hs : Step e names e') (hclock : e.Clocked) :
    e.times.Follows names e'.times := by
  cases hs with
  | request h state request => exact request.follows hclock h state
  | setRoots roots =>
    apply ReloadTimes.Follows.of_eq
    rw [Engine.setRoots]
    split
    · rfl
    · rfl
  | forgetDependencies => exact .of_eq rfl
  | handOver roots =>
    have htimes : ReloadTimes.empty.merge e.times = e.times := by
      simp [ReloadTimes.merge, ReloadTimes.empty, Table.empty_merge]
    exact .of_eq htimes

/-! ## Lines -/

/-- The history of an engine since there was a new one at its beginning: for each step, the latest
first, the names of the modules that were reloaded in it. -/
inductive Line : List (List String) → Engine → Prop
  | new (roots : OwnedRoots) : Line [] (.new roots)
  | step {history : List (List String)} {e e' : Engine} {names : List String}
      (hl : Line history e) (hs : Step e names e') : Line (names :: history) e'

namespace Line

variable {history later earlier : List (List String)}

theorem reached (hl : Line history e) : e.Reached := by
  induction hl with
  | new roots => exact .new roots
  | step _ hs ih => exact hs.reached ih

/-- **The mark of a step.** What was reloaded in the step has a later time ever after. What was
reloaded neither in it nor since has none or an earlier one. -/
theorem exists_mark (hl : Line (later ++ names :: earlier) e) :
    ∃ mark ≤ e.times.clock, (∀ n ∈ names, ∃ u, e.times.get? n = some u ∧ mark < u) ∧
      ∀ n, (∀ call ∈ names :: later, n ∉ call) → ∀ u, e.times.get? n = some u → u ≤ mark := by
  induction later generalizing e with
  | nil =>
    cases hl with
    | @step _ e _ _ hl hs =>
      have hclock := hl.reached.clocked
      have hfollows := hs.follows hclock
      refine ⟨e.times.clock, hfollows.clock, hfollows.reloaded, fun n hn u hu ↦ ?_⟩
      rw [hfollows.others n (hn names List.mem_cons_self)] at hu
      exact hclock n u hu
  | cons call later ih =>
    cases hl with
    | @step _ e _ _ hl hs =>
      have hfollows := hs.follows hl.reached.clocked
      obtain ⟨mark, hmark, hreloaded, hothers⟩ := ih hl
      refine ⟨mark, Nat.le_trans hmark hfollows.clock, fun n hn ↦ ?_, fun n hn u hu ↦ ?_⟩
      · by_cases hagain : n ∈ call
        · obtain ⟨u, hu, hlt⟩ := hfollows.reloaded n hagain
          exact ⟨u, hu, Nat.lt_of_le_of_lt hmark hlt⟩
        · rw [hfollows.others n hagain]
          exact hreloaded n hn
      · rw [hfollows.others n (hn call (by simp))] at hu
        refine hothers n (fun call' hcall' ↦ hn call' ?_) u hu
        rcases List.mem_cons.mp hcall' with rfl | hcall'
        · exact List.mem_cons_self
        · exact List.mem_cons_of_mem _ (List.mem_cons_of_mem _ hcall')

theorem isBehind {c x : Module} (hl : Line (later ++ names :: earlier) e) (hc : c.name ∈ names)
    (hx : ∀ call ∈ names :: later, x.name ∉ call) : e.isBehind x c = true := by
  obtain ⟨mark, -, hreloaded, hothers⟩ := hl.exists_mark
  obtain ⟨u, hu, hlt⟩ := hreloaded _ hc
  rw [Engine.isBehind, hu, Walk.reloadedSince, Option.all_eq_true]
  intro v hv
  exact decide_eq_true (Nat.lt_of_le_of_lt (hothers _ hx v hv) hlt)

end Line

end Engine

/-! ## Making up for reloads -/

theorem Visits.exists_turn_of_no_failure {e : Engine} {state : σ} {force : Bool} {m x : Module}
    {children : List Module} {w' : Walk σ τ} {ts : List (Turn σ τ)} {err : Option ReloadError}
    (hv : Visits h tick force [m] (Walk.opening (.start e state)) ts err w')
    (hasked : .asked x children ∈ w'.events)
    (hbefore : ∀ pre y post, w'.events = pre ++ .failed y :: post → .checked x ∈ pre) :
    ∃ t ∈ ts, t.module = x ∧ t.children = children := by
  cases err with
  | none => exact hv.exists_turn_of_asked (.opening e state) rfl hasked
  | some err =>
    have hfailed : Event.failures w'.events ≠ [] := fun hnone ↦
      absurd (hv.err_eq_none_iff.mpr hnone) (by simp)
    obtain ⟨y, hy⟩ := List.exists_mem_of_ne_nil _ hfailed
    obtain ⟨pre, post, hsplit⟩ := List.append_of_mem (Event.mem_failures.mp hy)
    have hlooked : .checked x ∈ w'.events := by
      rw [hsplit]
      exact List.mem_append_left _ (hbefore pre y post hsplit)
    exact hv.exists_turn_of_looked (.opening e state) rfl hasked hlooked

/-- A module that depends on another one. The reload of some modules fails. -/
def Host.tower (fails : List Module) : Host Unit Unit :=
  .sketch [(.top, ["base"]), (.base, [])] fails

namespace Engine.Line

variable {e : Engine} {later earlier : List (List String)} {names : List String}

/-- **No reload of a dependency is forgotten.** Suppose that a module `c` was reloaded in some step,
and another one, `x`, neither in this step nor since. A call that comes to `x` and finds `c` among
its dependencies tries to reload `x`, unless something fails before. -/
theorem mem_attempts_autoreload {c x m : Module} {force : Bool} {state : σ}
    {result : Except ReloadError Bool} {r : Run σ τ} {children : List Module}
    (hl : Line (later ++ names :: earlier) e) (hc : c.name ∈ names)
    (hx : ∀ call ∈ names :: later, x.name ∉ call)
    (hcall : (Run.start e state).autoreload h m force = (result, r))
    (hasked : .asked x children ∈ r.events) (hchild : c ∈ children)
    (hbefore : ∀ pre y post, r.events = pre ++ .failed y :: post → .checked x ∈ pre) :
    x ∈ Event.attempts r.events := by
  obtain ⟨ts, err, w', hv, -, rfl⟩ := Run.exists_visits_of_call hl.reached.clocked hcall
  obtain ⟨t, ht, rfl, rfl⟩ := hv.exists_turn_of_no_failure hasked hbefore
  obtain ⟨pre, post, rfl⟩ := List.append_of_mem ht
  -- The module is behind the dependency when the call begins, so it still is in its turn.
  have hbusy : t.isIdle h.files = false :=
    hv.isIdle_eq_false_of_child hl.reached.lt_succ_clock hchild (.inr (hl.isBehind hc hx))
  rw [hv.attempts_eq]
  refine List.mem_map_of_mem (List.mem_filter.mpr ⟨by simp, ?_⟩)
  simp [hbusy]

/-- The lower module is reloaded by itself. The upper one fails to follow, and its engine is
replaced by a new one, which tries again. -/
theorem tower_attempts :
    let first := Request.run (.tower []) (.start (.new .empty) ()) (.autoreload .top true)
    let second := Request.run (.tower []) (.start first.engine ()) (.reload .base)
    let third := Request.run (.tower [.top]) (.start second.engine ()) (.autoreload .top false)
    let e := (Engine.new .empty).restore third.engine.take.1
    let last := ((Run.start e ()).autoreload (.tower []) .top false).2
    Line [[], third.reloaded, second.reloaded, first.reloaded] e ∧
      Event.failures third.events = [.top] ∧ .top ∈ Event.attempts last.events := by
  intro first second third e last
  have hl : Line [[], third.reloaded, second.reloaded, first.reloaded] e :=
    .step (.step (.step (.step (.new _) (.request ..)) (.request ..)) (.request ..)) (.handOver _ _)
  have hasked : .asked .top [.base] ∈ last.events := Event.mem_findings.mp (by decide)
  have hcalm : Event.failures last.events = [] := by decide
  refine ⟨hl, by decide, ?_⟩
  have hsince : ∀ call ∈ second.reloaded :: [[], third.reloaded], Module.top.name ∉ call := by
    decide
  apply mem_attempts_autoreload hl (c := .base) (by decide) hsince (Prod.eta _).symm hasked
    (by decide)
  intro pre y post hsplit
  have hy : y ∈ Event.failures last.events := by
    rw [Event.mem_failures, hsplit]
    simp
  rw [hcalm] at hy
  exact absurd hy List.not_mem_nil

end Engine.Line

end ModuleReload
