import ModuleReload.Proofs.Engine.Again
import ModuleReload.Proofs.Engine.Line
import ModuleReload.Proofs.Engine.Way

/-!
# The same call after a failure

A failed reload ends a call, with the module and all that depend on it left as they are. What the
call has found out on its way down is remembered, so the same call made again comes to a module of
that name once more (`Visits.recalls_of_error`, `Visits.exists_turn_of_recalls`).

Whether it tries again depends on why the module was to be reloaded
(`Run.reloads_after_failure_iff`). A module that is behind a dependency stays behind it. But a
change of a source is reported once, and the failed call has looked at the source; so a module that
was to be reloaded for the sake of its own source is left alone (`Run.lone_failure_forgotten`),
until there is another reason.
-/

namespace ModuleReload

variable {σ τ : Type} {h : Host σ τ} {tick : Tick}

/-! ## The way to a failure -/

/-- Among the remembered dependencies of the first name is a module of the second. -/
def Engine.Recalls (e : Engine) (n k : String) : Prop :=
  ∃ children, e.dependencies.get? n = some children ∧ ∃ c ∈ children, c.name = k

theorem Engine.Recalls.of_leadsTo {r : Run σ τ} {a b : Module} (hab : r.LeadsTo a b) :
    r.engine.Recalls a.name b.name := by
  obtain ⟨children, -, hlist, hb⟩ := hab
  exact ⟨children, hlist, b, hb, rfl⟩

namespace Visits

variable {force : Bool} {ms : List Module} {m : Module} {w w' : Walk σ τ} {ts : List (Turn σ τ)}
  {err : Option ReloadError}

/-- **A failed call remembers the way to its failure.** Every module on the way has had its
dependencies asked for, and none has had its turn. -/
theorem recalls_of_error {e : ReloadError} (hv : Visits h tick force ms w ts (some e) w') :
    ∃ m ∈ ms, Relation.ReflTransGen w'.engine.Recalls m.name e.module := by
  obtain ⟨m, hm, way, x, hway, hname, -⟩ := hv.exists_way
  exact ⟨m, hm, hname ▸ hway.reaches_end.lift Module.name fun _ _ ↦ .of_leadsTo⟩

/-- In its turn a module has the dependencies that were remembered at the start, if any were. -/
theorem children_of_recalled (hv : Visits h tick force ms w ts err w') {t : Turn σ τ} (ht : t ∈ ts)
    {children : List Module}
    (hlist : w.engine.dependencies.get? t.module.name = some children) : t.children = children := by
  refine ((hv.invariant (P := fun _ ↦ True)
    (I := fun v ↦ ∀ n ∉ v.visited, v.engine.dependencies.get? n = w.engine.dependencies.get? n)
    (Q := fun m l ↦ ∀ l', w.engine.dependencies.get? m.name = some l' → l = l')
    (fun _ _ ↦ rfl) (fun _ _ ↦ trivial) (fun _ _ hv ↦ hv) (fun v ns m hI _ hnew ↦ ?_)
    fun s hs hI _ _ n hn ↦ ?_).2 t ht).2.2 children hlist
  · refine ⟨fun n hn ↦ ?_, fun l hl ↦ ?_, fun _ _ ↦ trivial⟩
    · have hne : n ≠ m.name := fun heq ↦ hn (heq ▸ List.mem_cons_self)
      rw [Walk.entering_dependencies_get?, if_neg hne]
      exact hI n fun hmem ↦ hn (List.mem_cons_of_mem _ hmem)
    · rw [Engine.childrenOf, hI _ hnew, hl, Option.getD_some]
  · have hne : n ≠ s.module.name := fun heq ↦ hn (heq ▸ hv.self_visited hs)
    rw [Turn.after_dependencies_get?, if_neg fun hc ↦ hne hc.2, hI n hn]

/-- A call that comes to its end has come to every name to which remembered dependencies lead. -/
theorem exists_turn_of_recalls (hv : Visits h tick force [m] w ts none w') (hstart : w.visited = [])
    {n : String} (hpath : Relation.ReflTransGen w.engine.Recalls m.name n) :
    ∃ t ∈ ts, t.module.name = n := by
  induction hpath with
  | refl => exact hv.exists_turn_of_visited hstart (hv.mem_visited_of_mem List.mem_cons_self)
  | tail _ hlast ih =>
    obtain ⟨t, ht, rfl⟩ := ih
    obtain ⟨children, hlist, c, hc, rfl⟩ := hlast
    rw [← hv.children_of_recalled ht hlist] at hc
    obtain ⟨hvisited, hsub⟩ := hv.children_visited ht hc
    exact hv.exists_turn_of_visited hstart (hsub hvisited)

/-! ## Decisions by the account -/

theorem not_mem_reloads_of_error {e : Engine} {state : σ} {e' : ReloadError}
    (hv : Visits h tick force ms (Walk.opening (.start e state)) ts (some e') w') :
    e'.module ∉ (Event.reloads w'.events).map Module.name := by
  obtain ⟨t, ht, hfail⟩ := hv.exists_of_error
  rw [hv.mem_reloads_iff, Turn.module_of_outcome hfail, hv.anyReload_iff_isReload ht, Turn.isReload,
    hfail]
  simp

/-- **When a module is reloaded in its turn, by the account.** One of its dependencies was reloaded
before in the call, or the module was behind it at the start; or the module was newer at the start,
and its source has not been looked at before in the call. -/
theorem isReload_iff_account {e : Engine} {state : σ} {pre post : List (Turn σ τ)} {t : Turn σ τ}
    (hv : Visits h tick false ms (Walk.opening (.start e state)) (pre ++ t :: post) none w')
    (htick : ∀ n u, e.times.get? n = some u → u < tick) :
    t.isReload h tick = true ↔
      (∃ c ∈ t.children, c.name ∈ (Event.reloads t.before.events).map Module.name ∨
        e.isBehind t.module c = true) ∨
      (e.isNewer h.files t.module = true ∧
        ∀ y ∈ Event.looks t.before.events, ¬y.SameSource h.files t.module) := by
  have ht : t ∈ pre ++ t :: post := by simp
  have hrow : Replays h tick (Walk.opening (.start e state)) pre t.before := hv.replays.split.1
  have hforce : t.force = false := by
    rw [← Bool.not_eq_true]
    intro hforce
    exact absurd (hv.of_force ht hforce).1 (by decide)
  have hreloads (n : String) : n ∈ (Event.reloads t.before.events).map Module.name ↔
      Turn.anyReload h tick pre n = true := by
    rw [hrow.reloads_eq, Turn.anyReload_iff]
    simp [Walk.opening, Run.start, Run.tick, Event.reloads, and_assoc]
  have hlooks : Event.looks t.before.events = pre.map Turn.module := hrow.looks_eq
  rw [hv.isReload_iff_isDue ht, hforce, Engine.isDue_iff, hrow.isNewer_iff, hlooks]
  simp only [hv.isBehind_before_iff htick, hreloads, List.forall_mem_map, Bool.false_eq_true,
    false_or]
  exact or_comm

end Visits

/-! ## A module alone -/

/-- The host of a module with a source and without dependencies. Its reload may fail. -/
def Host.lone (t : FileSystem.Instant) (fails : Bool) : Host Unit Unit where
  files := .lone t
  modules := [.lone]
  declares _ _ := []
  save _ _ := (none, ())
  reinitialize _ _ := (if fails then some "refused" else none, ())
  restore _ _ _ := ()

/-! ## Trying again -/

namespace Run

variable {e : Engine} {state state' : σ} {h' : Host σ τ} {m : Module} {first second : Run σ τ}
  {err : ReloadError} {result : Except ReloadError Bool}

/-- **The same call after a failure.** If a call fails for a module, and no file changes before the
same call is made again, with no failure this time, then the second call comes to a module of that
name. It reloads the module exactly if

* one of the dependencies that it finds for the module has been reloaded, in the first call or
before in the second, or the module was behind one of them from the start, or * the module was newer
from the start, and neither call has looked at its source before.

So what the failed call has looked at is not newer for the second one. -/
theorem reloads_after_failure_iff (he : e.Reached) (hfiles : h'.files = h.files)
    (hfirst : (start e state).autoreload h m false = (.error err, first))
    (hsecond : (start first.engine state').autoreload h' m false = (result, second))
    (hok : Event.failures second.events = []) :
    ∃ x children pre post, x.name = err.module ∧ .asked x children ∈ second.events ∧
      second.events = pre ++ .checked x :: post ∧
      (x ∈ Event.reloads second.events ↔
        (∃ c ∈ children, c.name ∈ (Event.reloads (first.events ++ pre)).map Module.name ∨
          e.isBehind x c = true) ∨
        (e.isNewer h.files x = true ∧
          ∀ y ∈ Event.looks (first.events ++ pre), ¬y.SameSource h.files x)) := by
  have hreached : first.engine.Reached := he.of_call hfirst
  obtain ⟨ts, err₁, w₁, hv₁, hanswer, rfl⟩ := exists_visits_of_call he.clocked hfirst
  obtain rfl := eq_some_of_answer hanswer
  obtain ⟨us, err₂, w₂, hv₂, -, rfl⟩ := exists_visits_of_call hreached.clocked hsecond
  obtain rfl := hv₂.err_eq_none_iff.mpr hok
  -- The failed call remembers the way to the module, so the second one has a turn of its name.
  obtain ⟨_, hm, hpath⟩ := hv₁.recalls_of_error
  rw [List.mem_singleton.mp hm] at hpath
  obtain ⟨t, ht, hname⟩ := hv₂.exists_turn_of_recalls rfl hpath
  have hasked : .asked t.module t.children ∈ w₂.events :=
    Event.mem_findings.mp (hv₂.mem_findings ht)
  have hreload : t.module ∈ Event.reloads w₂.events ↔ t.isReload h' _ = true :=
    hv₂.mem_reloads_iff_isReload ht
  obtain ⟨pre, post, rfl⟩ := List.append_of_mem ht
  obtain ⟨es, hes⟩ := hv₂.replays.exists_events_of_turn
  refine ⟨t.module, t.children, t.before.events, es, hname, hasked, hes, ?_⟩
  -- What the second call starts from is told by the account of the first one.
  have hbehind (c : Module) : w₁.engine.isBehind t.module c = true ↔
      c.name ∈ (Event.reloads w₁.events).map Module.name ∨ e.isBehind t.module c = true := by
    rw [hv₁.isBehind_iff_account he.lt_succ_clock, hname]
    exact and_iff_right hv₁.not_mem_reloads_of_error
  rw [hreload, hv₂.isReload_iff_account hreached.lt_succ_clock, hfiles]
  refine or_congr (exists_congr fun c ↦ and_congr_right fun _ ↦ ?_) ?_
  · rw [hbehind, Event.reloads_append, List.map_append, List.mem_append, or_assoc]
    exact or_left_comm
  · rw [hv₁.isNewer_iff_account, Event.looks_append, List.forall_mem_append, and_assoc]

/-- The upper of two modules fails to follow the lower one, and does so when the call is made
again. -/
theorem tower_retries :
    let e := ((start (.new .empty) ()).reload (.tower []) .base).2.engine
    let first := (start e ()).autoreload (.tower [.top]) .top false
    let second := (start first.2.engine first.2.state).autoreload (.tower []) .top false
    first.1 = .error ⟨"top", "refused"⟩ ∧ .top ∈ Event.reloads second.2.events := by
  intro e first second
  have he : e.Reached := .reload _ _ _ (.new _)
  have hfailed : first.1 = .error ⟨"top", "refused"⟩ := by decide
  have hfirst : (start e ()).autoreload (.tower [.top]) .top false =
      (.error ⟨"top", "refused"⟩, first.2) := by
    rw [← hfailed]
  have hsecond : (start first.2.engine first.2.state).autoreload (.tower []) .top false =
      (second.1, second.2) := (Prod.eta _).symm
  have hfiles : (Host.tower []).files = (Host.tower [.top]).files := rfl
  obtain ⟨x, children, pre, post, hname, hasked, -, hiff⟩ :=
    reloads_after_failure_iff he hfiles hfirst hsecond (by decide)
  have hfindings : Event.findings second.2.events = [(.top, [.base]), (.base, [])] := by decide
  have hfound := Event.mem_findings.mpr hasked
  rw [hfindings] at hfound
  obtain ⟨rfl, rfl⟩ : x = .top ∧ children = [.base] := by
    rcases List.mem_cons.mp hfound with htop | hbase
    · exact Prod.mk.inj htop
    · rw [(Prod.mk.inj (List.mem_singleton.mp hbase)).1] at hname
      exact absurd hname (by decide)
  have hbehind : e.isBehind .top .base = true := by decide
  exact ⟨hfailed, hiff.mpr (.inl ⟨.base, List.mem_singleton_self _, .inr hbehind⟩)⟩

/-- A module is to be reloaded because its source has changed. The reload fails; and when the same
call is made again, with a host that would not fail, the module is left alone. -/
theorem lone_failure_forgotten :
    let e := ((start (.new .empty) () : Run Unit Unit).isStale (.lone 0 false) .lone).2.engine
    e.Reached ∧ (∀ state m, Host.reinitialize (.lone 1 false) state m = (none, ())) ∧
      ∃ err first second, (start e ()).autoreload (.lone 1 true) .lone false = (.error err, first) ∧
        err.module = Module.lone.name ∧
        (start first.engine ()).autoreload (.lone 1 false) .lone false = (.ok false, second) ∧
        Event.attempts second.events = [] := by
  intro e
  have he : e.Reached := .isStale _ _ _ (.new _)
  let first := (start e ()).autoreload (.lone 1 true) .lone false
  let second := (start first.2.engine ()).autoreload (.lone 1 false) .lone false
  have hfails : first.1 = .error ⟨"a", "refused"⟩ := by decide +kernel
  have hidle : second.1 = .ok false := by decide +kernel
  have hfirst : (start e ()).autoreload (.lone 1 true) .lone false =
      (.error ⟨"a", "refused"⟩, first.2) := by
    rw [← hfails]
  have hsecond : (start first.2.engine ()).autoreload (.lone 1 false) .lone false =
      (.ok false, second.2) := by
    rw [← hidle]
  have hnothing : Event.attempts second.2.events = [] := by decide +kernel
  exact ⟨he, fun _ _ ↦ rfl, _, _, _, hfirst, rfl, hsecond, hnothing⟩

end Run

end ModuleReload
