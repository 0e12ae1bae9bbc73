import ModuleReload.Proofs.Engine.Unwinding
import ModuleReload.Proofs.Engine.Visits

/-!
# The walk of a call as visits

The walk of `autoreload` is the visits of `Unwinds`, where each module goes through its dependencies
and keeps a flag. Here they are shown to be those of `Visits`, where a turn needs no flag
(`Unwinds.exists_visits`), so that all that is known of turns in a row is known of a call
(`Run.exists_visits`).

The flag says the same as the times at the moment of the turn: what was reloaded in this call bears
its tick, which is later than the time of any module that has not been visited (`Walk.Ahead`), and
the times of the dependencies that have been visited stay while their siblings are.
-/

namespace ModuleReload

variable {σ τ : Type} {h : Host σ τ} {tick : Tick}

/-! ## Times behind the tick -/

namespace Walk

/-- All times of modules that have not been visited are earlier than the tick of the call. -/
def Ahead (tick : Tick) (w : Walk σ τ) : Prop :=
  ∀ n ∉ w.visited, ∀ u, w.engine.times.get? n = some u → u < tick

theorem Ahead.entering {w : Walk σ τ} (hw : w.Ahead tick) (ns : List Notice) (m : Module) :
    (w.entering h ns m).Ahead tick := by
  intro n hn u hu
  rw [entering_times] at hu
  exact hw n (fun hmem ↦ hn (List.mem_cons_of_mem _ hmem)) u hu

theorem Ahead.visits {force : Bool} {ms : List Module} {w w' : Walk σ τ} {ts : List (Turn σ τ)}
    {err : Option ReloadError} (hw : w.Ahead tick) (hv : Visits h tick force ms w ts err w') :
    w'.Ahead tick := by
  intro n hn u hu
  rw [hv.times_of_not_visited hn] at hu
  exact hw n (fun hmem ↦ hn (hv.visited_subset hmem)) u hu

theorem Ahead.after {t : Turn σ τ} (ha : t.before.Ahead tick)
    (hself : t.module.name ∈ t.before.visited) : (t.after h tick).Ahead tick := by
  intro n hn u hu
  have hne : n ≠ t.module.name := fun heq ↦ hn (heq ▸ hself)
  rw [Turn.after_times_get?, if_neg fun hc ↦ hne hc.2] at hu
  exact ha n hn u hu

end Walk

/-! ## The flag -/

/-- That the visits of modules make another module due exactly if it is behind one of them
afterwards. -/
def Walk.TellsDue (tick : Tick) (ms : List Module) (vs : List (Bool × Option Tick)) (w : Walk σ τ) :
    Prop :=
  ∀ mine : Option Tick, mine.all (· < tick) = true →
    isDueBy mine vs = ms.any fun c ↦ reloadedSince mine (w.engine.times.get? c.name)

namespace Visits

variable {force b : Bool} {ms : List Module} {m : Module} {w w₁ w' : Walk σ τ}
  {ts us : List (Turn σ τ)}
  {vs : List (Bool × Option Tick)} {err : Option ReloadError} {ns : List Notice} {t : Turn σ τ}

/-- The flag of a module is computed with the time that it has on the way down. In its turn that is
still its time, so that the flag says whether it is due by then. -/
theorem due_eq (hv : Visits h tick false ms (w.entering h ns m) ts none w₁) (ha : w.Ahead tick)
    (hnew : m.name ∉ w.visited) (htells : w₁.TellsDue tick ms vs) :
    (force || Walk.isDueBy (w.engine.times.get? m.name) vs) = Turn.due ⟨m, ms, force, w₁⟩ := by
  have hmine : (w.engine.times.get? m.name).all (· < tick) = true := by
    rw [Option.all_eq_true]
    intro u hu
    exact decide_eq_true (ha _ hnew u hu)
  have hbelow : w₁.engine.times.get? m.name = w.engine.times.get? m.name := by
    rw [hv.times_of_visited List.mem_cons_self, Walk.entering_times]
  rw [htells _ hmine, ← hbelow]
  rfl

/-- What the visit of a module came to, and the time that it bears after it, say whether another
module is behind it; and the rest of the visits does not change that. -/
theorem tellsDue_cons (hv : Visits h tick force ms w₁ us err w') (hseen : m.name ∈ w₁.visited)
    (hreload : b = true → w₁.engine.times.get? m.name = some tick)
    (htells : w'.TellsDue tick ms vs) :
    w'.TellsDue tick (m :: ms) ((b, w₁.engine.times.get? m.name) :: vs) := by
  intro mine hmine
  rw [Walk.isDueBy_cons, htells mine hmine, List.any_cons, hv.times_of_visited hseen]
  cases b with
  | false => rw [Bool.false_or]
  | true =>
    rw [hreload rfl]
    have hsince : Walk.reloadedSince mine (some tick) = true := hmine
    rw [hsince, Bool.true_or]

theorem eq_nil (hv : Visits h tick force [] w ts err w') : ts = [] := by
  cases hv
  rfl

/-- Among the turns of a visit that came to an end, the last is that of the module itself. -/
theorem anyReload_turn (hv : Visits h tick false ms w ts err w₁) (ht : t.module.name ∈ w.visited)
    (hok : (t.outcome h tick).1 = .ok b) :
    Turn.anyReload h tick (ts ++ [t]) t.module.name = b := by
  have hts : Turn.anyReload h tick ts t.module.name = false := by
    rw [← Bool.not_eq_true, Turn.anyReload_iff]
    rintro ⟨s, hs, -, hname⟩
    exact (hv.mem_visited hs).1 (hname ▸ ht)
  rw [Turn.anyReload_append, hts, Bool.false_or, Turn.anyReload_cons, Turn.isReload_of_outcome hok]
  simp [Turn.anyReload]

end Visits

/-- **The flag can be read off the times.** If all times of modules that have not been visited are
earlier than the tick of the call, then the visits that the walk makes are those of `Visits`, and
what they came to can be told from the times at their end. -/
theorem Unwinds.exists_visits {force : Bool} {ms : List Module} {w w' : Walk σ τ}
    {vs : List (Bool × Option Tick)} {err : Option ReloadError}
    (hu : Unwinds h tick force ms w vs err w') (ha : w.Ahead tick) :
    ∃ ts, Visits h tick force ms w ts err w' ∧ (err = none → w'.TellsDue tick ms vs) ∧
      ∀ m, ms = [m] → err = none → vs.any Prod.fst = Turn.anyReload h tick ts m.name := by
  induction hu with
  | done ns => exact ⟨[], .done ns, fun _ _ _ ↦ rfl, by simp⟩
  | skip hseen hrest ih =>
    obtain ⟨ts, hv, htells, -⟩ := ih ha
    refine ⟨ts, .skip hseen hv, fun hnone ↦ hv.tellsDue_cons hseen (by simp) (htells hnone), ?_⟩
    rintro m ⟨rfl, rfl⟩ -
    rw [hrest.eq_nil, hv.eq_nil]
    rfl
  | broken ns hnew _ ih =>
    obtain ⟨ts, hv, -, -⟩ := ih (ha.entering ns _)
    exact ⟨ts, .broken ns hnew hv, by simp, by simp⟩
  | @fail force m _ w w₁ _ e r ns hnew _ hfail ih =>
    obtain ⟨ts, hv, htells, -⟩ := ih (ha.entering ns m)
    let t : Turn σ τ := ⟨m, w.engine.childrenOf h w.state m, force, w₁⟩
    rw [hv.due_eq ha hnew (htells rfl)] at hfail
    have hout : t.outcome h tick = (.error e, r) := hfail
    have hafter : t.after h tick = w₁.put r := by rw [Turn.after, hout]
    exact ⟨ts ++ [t], hafter ▸ .fail ns hnew hv rfl (by rw [hout]), by simp, by simp⟩
  | @turn force b m _ w w₁ w' _ us err r ns hnew _ hok hrest ih₁ ih₂ =>
    obtain ⟨ts, hv, htells, -⟩ := ih₁ (ha.entering ns m)
    let t : Turn σ τ := ⟨m, w.engine.childrenOf h w.state m, force, w₁⟩
    rw [hv.due_eq ha hnew (htells rfl)] at hok
    have hout : t.outcome h tick = (.ok b, r) := hok
    have hafter : t.after h tick = w₁.put r := by rw [Turn.after, hout]
    have hself : m.name ∈ w₁.visited := hv.visited_subset List.mem_cons_self
    have hresult : (t.outcome h tick).1 = .ok b := by rw [hout]
    have ha₁ : (t.after h tick).Ahead tick := ((ha.entering ns m).visits hv).after hself
    rw [hafter] at ha₁
    obtain ⟨us, hv', htells', -⟩ := ih₂ ha₁
    have hreload : b = true → (w₁.put r).engine.times.get? m.name = some tick := by
      rintro rfl
      rw [← hafter, Turn.after_times_get?, if_pos ⟨Turn.isReload_of_outcome hresult, rfl⟩]
    refine ⟨ts ++ t :: us, .turn ns hnew hv rfl hresult (hafter ▸ hv'),
      fun hnone ↦ hv'.tellsDue_cons hself hreload (htells' hnone), ?_⟩
    rintro m ⟨rfl, rfl⟩ -
    rw [hrest.eq_nil, hv'.eq_nil, hv.anyReload_turn (t := t) List.mem_cons_self hresult]
    simp

/-! ## The call -/

/-- No module bears a tick that the clock has not handed out. -/
def Engine.Clocked (e : Engine) : Prop :=
  ∀ n u, e.times.get? n = some u → u ≤ e.times.clock

theorem Engine.Clocked.lt_succ {e : Engine} (hclock : e.Clocked) (n : String) (u : Tick)
    (hu : e.times.get? n = some u) : u < e.times.clock + 1 :=
  Nat.lt_succ_of_le (hclock n u hu)

/-- **A call is visits of its module.** If no module bears a tick that is still to come, the call
visits its module with a new tick, and answers whether it reloaded the module or why it stopped. -/
theorem Run.exists_visits {r : Run σ τ} (hclock : r.engine.Clocked) (m : Module) (force : Bool) :
    ∃ ts err w', Visits h (r.engine.times.clock + 1) force [m] (Walk.opening r) ts err w' ∧
      r.autoreload h m force =
        (answer err (Turn.anyReload h (r.engine.times.clock + 1) ts m.name), w'.toRun) := by
  obtain ⟨vs, err, w', hu, hcall, -⟩ := r.reloadEnds (h := h) m force
  have hahead : (Walk.opening r).Ahead (r.engine.times.clock + 1) :=
    fun n _ u hu ↦ hclock.lt_succ n u hu
  obtain ⟨ts, hv, -, hanswer⟩ := hu.exists_visits hahead
  refine ⟨ts, err, w', hv, ?_⟩
  rw [hcall]
  cases err with
  | some e => rfl
  | none => rw [hanswer m rfl rfl]

namespace Visits

variable {e : Engine} {state : σ} {force : Bool} {ms : List Module} {w' : Walk σ τ}
  {ts : List (Turn σ τ)} {err : Option ReloadError}

/-! The account of a call that begins a new run is that of its turns. -/

theorem looks_eq (hv : Visits h tick force ms (Walk.opening (.start e state)) ts err w') :
    Event.looks w'.events = ts.map Turn.module :=
  hv.replays.looks_eq

theorem reloads_eq (hv : Visits h tick force ms (Walk.opening (.start e state)) ts err w') :
    Event.reloads w'.events = (ts.filter (Turn.isReload h tick)).map Turn.module :=
  hv.replays.reloads_eq

theorem attempts_eq (hv : Visits h tick force ms (Walk.opening (.start e state)) ts err w') :
    Event.attempts w'.events = (ts.filter (!Turn.isIdle h.files ·)).map Turn.module :=
  hv.replays.attempts_eq

/-- The modules that a call has reloaded are those that one of its turns reloads. -/
theorem mem_reloads_iff (hv : Visits h tick force ms (Walk.opening (.start e state)) ts err w')
    {n : String} : n ∈ (Event.reloads w'.events).map Module.name ↔
      Turn.anyReload h tick ts n = true := by
  rw [hv.reloads_eq, Turn.anyReload_iff]
  simp [and_assoc]

end Visits

end ModuleReload
