import ModuleReload.Proofs.Engine.Doing
import ModuleReload.Proofs.Engine.Failure

/-!
# The footprint of a call

What a call leaves behind, whether it comes to its end or fails (`Run.footprint_autoreload`): the
clock, the times of reloads, the remembered dependencies, what the host was made to do, and what was
not touched.

All that is done in a call is done to modules in their turns (`Replays.does`). So a module without a
turn is spared (`Run.Spares`) if no other module has its source: nothing is done to it, and its time
and its baseline stay. When a call fails, the modules without a turn are those that it has not come
to, and those on the way from its own module to the one that failed (`Visits.exists_way`). A change
of their sources is news to the next call as it was to the failed one (`Run.NextCall.mem_attempts`).
-/

namespace ModuleReload

variable {σ τ : Type} {h : Host σ τ} {tick : Tick}

/-! ## What is spared -/

/-- A module is spared by a run that begins with an engine: nothing is done to it, and it keeps its
time and the baseline of its source. -/
structure Run.Spares (fs : FileSystem) (e : Engine) (r : Run σ τ) (x : Module) : Prop where
  events : ∀ ev ∈ r.events, ev.subject? ≠ some x
  time : r.engine.times.get? x.name = e.times.get? x.name
  baseline : r.engine.baseline? fs x = e.baseline? fs x

namespace Visits

variable {e : Engine} {state : σ} {force : Bool} {ms : List Module} {m x : Module} {w' : Walk σ τ}
  {ts : List (Turn σ τ)} {err : Option ReloadError}

/-- **A module without a turn is spared**, if no other module has its source. -/
theorem spares (hv : Visits h tick force ms (Walk.opening (.start e state)) ts err w')
    (hms : ∀ a ∈ ms, e.Holds h m a)
    (hsources : ∀ a b, e.Holds h m a → e.Holds h m b → a.SameSource h.files b → a = b)
    (hx : e.Holds h m x) (hturnless : ∀ t ∈ ts, t.module.name ≠ x.name) :
    w'.Spares h.files e x where
  events ev hev hsubject := by
    obtain ⟨es, hes, -, hdone⟩ := hv.replays.does
    rw [hes] at hev
    obtain ⟨t, ht, rfl⟩ := hdone ev hev x hsubject
    exact hturnless t ht rfl
  time := hv.replays.times_of_forall fun t ht hname ↦ absurd hname (hturnless t ht)
  baseline := hv.replays.baseline?_eq fun t ht hsame ↦
    hturnless t ht (congrArg Module.name (hsources _ _ (hv.holds hms ht).1 hx hsame))

/-- **A change is reported.** If a module is newer and a call looks at it, then the call attempts to
reload it, if no other module has its source. -/
theorem mem_attempts_of_isNewer
    (hv : Visits h tick force ms (Walk.opening (.start e state)) ts err w')
    (hms : ∀ a ∈ ms, e.Holds h m a)
    (hsources : ∀ a b, e.Holds h m a → e.Holds h m b → a.SameSource h.files b → a = b)
    (hnewer : e.isNewer h.files x = true) (hlooked : .checked x ∈ w'.events) :
    x ∈ Event.attempts w'.events := by
  obtain ⟨t, ht, rfl⟩ := hv.checked_iff.mp hlooked
  rw [hv.mem_attempts_iff_isIdle ht, ← Bool.not_eq_true, Turn.isIdle_iff, Engine.isDue_eq_false]
  rintro ⟨-, hcalm, -⟩
  obtain ⟨pre, post, rfl⟩ := List.append_of_mem ht
  have hstill : t.before.engine.isNewer h.files t.module = true := by
    refine hv.replays.split.1.isNewer_iff _ |>.mpr ⟨hnewer, fun s hs hsame ↦ ?_⟩
    have hmodule :=
      hsources _ _ (hv.holds hms (List.mem_append_left _ hs)).1 (hv.holds hms ht).1 hsame
    have hnodup := hv.nodup
    rw [List.map_append, List.nodup_append] at hnodup
    exact hnodup.2.2 _ (List.mem_map_of_mem hs) _ (by simp) (congrArg Module.name hmodule)
  rw [hcalm] at hstill
  exact absurd hstill (by decide)

/-- What lies on a way down from the module of a call was at hand when the call began. -/
theorem holds_of_mem_way (hv : Visits h tick force [m] (Walk.opening (.start e state)) ts err w')
    {y : Module} {way : List Module} (hway : w'.Way m way x) (hy : y ∈ way) : e.Holds h m y := by
  rcases (hway.reaches_of_mem hy).cases_tail with rfl | ⟨a, -, children, -, hlist, hmem⟩
  · exact .inl rfl
  · exact (hv.holds_all Engine.Holds.forall_mem_singleton).1 y
      (.inr (.inr ⟨a.name, children, hlist, hmem⟩))

theorem clocked (hclock : e.Clocked)
    (hv : Visits h (e.times.clock + 1) force ms (Walk.opening (.start e state)) ts err w') :
    w'.engine.Clocked := by
  intro n u hu
  have hnow : w'.engine.times.clock = e.times.clock + 1 := hv.replays.clock_eq
  rw [hv.replays.times_get?] at hu
  rw [hnow]
  split at hu
  · rw [Option.some.inj hu]
  · exact Nat.le_succ_of_le (hclock n u hu)

end Visits

/-! ## A module that waits -/

/-- A module with a source depends on two others. The first of these depends on a module that has
been reloaded, and cannot be reloaded itself. -/
def Host.stuck : Host Unit Unit :=
  { Host.sketch [(.lone, []), (.base, ["top"]), (.right, []), (.top, [])] [.base] with
    files := .lone 1 }

namespace Engine

/-- The source has changed since it was looked at. -/
def stuck : Engine :=
  { reloadedOnce "top" with
    dependencies := ⟨[("a", [.base, .right])], List.nodup_singleton _⟩
    baselines := Baselines.empty.refresh (.lone 0) .lone }

theorem mem_modules_of_holds_stuck {a : Module} (ha : stuck.Holds .stuck .lone a) :
    a ∈ Host.stuck.modules :=
  ha.mem_modules (by decide) (by decide)

theorem oneHandle_stuck : stuck.OneHandle .stuck .lone :=
  fun _ _ ha hb ↦ List.inj_on_of_nodup_map (by decide) (mem_modules_of_holds_stuck ha)
    (mem_modules_of_holds_stuck hb)

theorem eq_lone_of_holds_stuck {x : Module} {p : Path} (hx : stuck.Holds .stuck .lone x)
    (hsource : Dependencies.sourceOf? Host.stuck.files x = some p) : x = .lone := by
  have hfile : ∀ x ∈ Host.stuck.modules, x.file ≠ none → x = .lone := by decide
  refine hfile x (mem_modules_of_holds_stuck hx) fun hnone ↦ ?_
  rw [Dependencies.sourceOf?, hnone] at hsource
  simp at hsource

theorem sources_stuck (a b : Module) (ha : stuck.Holds .stuck .lone a)
    (hb : stuck.Holds .stuck .lone b) (hsame : a.SameSource Host.stuck.files b) : a = b := by
  obtain ⟨p, q, hp, hq, -⟩ := hsame
  rw [eq_lone_of_holds_stuck ha hp, eq_lone_of_holds_stuck hb hq]

theorem isNewer_stuck : stuck.isNewer (.lone 1) .lone = true := by
  decide +kernel

end Engine

namespace Run

variable {h' : Host σ τ} {e : Engine} {state : σ} {m m' y : Module} {force : Bool}
  {result : Except ReloadError Bool} {r r' : Run σ τ}

/-! ## The next call -/

/-- A call made next, after a call for `m` that began with the engine `e`: it goes on with the
engine that the first call has left, and is for a module that was at hand in the first one. Files
and loaded modules are the same; what the modules do when they are reloaded need not be. -/
structure NextCall (h : Host σ τ) (e : Engine) (m : Module) (r : Run σ τ) (h' : Host σ τ)
    (m' : Module) (r' : Run σ τ) : Prop where
  files : h'.files = h.files
  modules : h'.modules = h.modules
  atHand : e.Holds h m m'
  call : ∃ state force result, (start r.engine state).autoreload h' m' force = (result, r')

/-- The next call is visits of its module as well, and has no other handles at hand. -/
theorem NextCall.exists_visits {w : Walk σ τ} {ts : List (Turn σ τ)} {err : Option ReloadError}
    (hnext : NextCall h e m w.toRun h' m' r') (hclock : e.Clocked)
    (hv : Visits h (e.times.clock + 1) force [m] (Walk.opening (.start e state)) ts err w) :
    ∃ state' force' us err' w', Visits h' (w.engine.times.clock + 1) force' [m']
        (Walk.opening (.start w.engine state')) us err' w' ∧ w'.toRun = r' ∧
      ∀ a, w.engine.Holds h' m' a → e.Holds h m a := by
  obtain ⟨state', force', result', hcall⟩ := hnext.call
  obtain ⟨us, err', w', hv', -, hr'⟩ := exists_visits_of_call (hv.clocked hclock) hcall
  refine ⟨state', force', us, err', w', hv', hr', ?_⟩
  rintro a (rfl | ha | hlist)
  · exact hnext.atHand
  · exact .inr (.inl (hnext.modules ▸ ha))
  · exact (hv.holds_all Engine.Holds.forall_mem_singleton).1 a (.inr (.inr hlist))

/-- **What a call has spared it leaves to the next one.** If a module was newer, and the next call
looks at it, then the next call attempts to reload it. -/
theorem NextCall.mem_attempts (hnext : NextCall h e m r h' m' r') (hclock : e.Clocked)
    (hsources : ∀ a b, e.Holds h m a → e.Holds h m b → a.SameSource h.files b → a = b)
    (hcall : (start e state).autoreload h m force = (result, r)) (hspared : r.Spares h.files e y)
    (hnewer : e.isNewer h.files y = true) (hlooked : .checked y ∈ r'.events) :
    y ∈ Event.attempts r'.events := by
  obtain ⟨ts, err, w, hv, -, rfl⟩ := exists_visits_of_call hclock hcall
  obtain ⟨state', force', us, err', w', hv', rfl, hback⟩ := hnext.exists_visits hclock hv
  have hstill : w.engine.isNewer h'.files y = true := by
    rw [hnext.files, Engine.isNewer_eq_of_baseline? hspared.baseline, hnewer]
  refine hv'.mem_attempts_of_isNewer (m := m') Engine.Holds.forall_mem_singleton ?_ hstill hlooked
  intro a b ha hb hsame
  rw [hnext.files] at hsame
  exact hsources a b (hback a ha) (hback b hb) hsame

/-- After a failed call, the same call made next looks at every module on the way to the failure, if
it comes to its end. -/
theorem NextCall.checked_of_mem_way {x : Module} {way : List Module}
    (hnext : NextCall h e m r h' m r') (hclock : e.Clocked) (hone : e.OneHandle h m)
    (hcall : (start e state).autoreload h m force = (result, r)) (hway : r.Way m way x)
    (hy : y ∈ way) (hok : Event.failures r'.events = []) : .checked y ∈ r'.events := by
  obtain ⟨ts, err, w, hv, -, rfl⟩ := exists_visits_of_call hclock hcall
  obtain ⟨state', force', us, err', w', hv', rfl, hback⟩ := hnext.exists_visits hclock hv
  obtain rfl := hv'.err_eq_none_iff.mpr hok
  have hpath : Relation.ReflTransGen w.engine.Recalls m.name y.name :=
    (hway.reaches_of_mem hy).lift Module.name fun _ _ ↦ .of_leadsTo
  obtain ⟨t, ht, hname⟩ := hv'.exists_turn_of_recalls rfl hpath
  have hheld := (hv'.holds (m := m) Engine.Holds.forall_mem_singleton ht).1
  exact hv'.checked_iff.mpr ⟨t, ht, hone _ _ (hback _ hheld) (hv.holds_of_mem_way hway hy) hname⟩

/-! ## The footprint -/

/-- **The footprint of a call.** Let the engine be one that can come about, or at least bear no tick
that is still to come; let there be one handle of each name, and let no two modules have one source.
However a call ends, it has advanced the clock by one. The modules that it has reloaded bear the new
tick, and all others the time that they had. It remembers the dependencies of a module that it has
come to exactly if it did not attempt to reload the module. What it had the host do is what
`Host.Performs` says.

If the call has failed, it stands at a module `x` whose reload was the one to fail, and which keeps
its time. The modules that wait lie on a way down from `m` to `x`. They and the modules that the
call has not come to are spared: if such a module was newer, the next call that looks at it attempts
to reload it, and the same call, made next and without a failure, looks at all that have waited. -/
theorem footprint_autoreload (hclock : e.Clocked) (hone : e.OneHandle h m)
    (hsources : ∀ a b, e.Holds h m a → e.Holds h m b → a.SameSource h.files b → a = b)
    (hcall : (start e state).autoreload h m force = (result, r)) :
    r.engine.times.clock = e.times.clock + 1 ∧
    (∀ n, r.engine.times.get? n =
      if n ∈ r.reloaded then some (e.times.clock + 1) else e.times.get? n) ∧
    (∀ x ∈ Event.attempts r.events, r.engine.dependencies.get? x.name = none) ∧
    (∀ x children, .asked x children ∈ r.events → x ∉ Event.attempts r.events →
      r.engine.dependencies.get? x.name = some children) ∧
    h.Performs state r.events r.state ∧
    ∀ error, result = .error error → ∃ way x, x.name = error.module ∧
      Event.failures r.events = [x] ∧ x.name ∉ r.reloaded ∧
      r.Way m way x ∧ (∀ y, Event.Waits r.events y ↔ y ∈ way) ∧
      ∀ y, (y ∈ way ∨ e.Holds h m y ∧ ∀ children, .asked y children ∉ r.events) →
        r.Spares h.files e y ∧ ∀ h' m' r', NextCall h e m r h' m' r' →
          (e.isNewer h.files y = true → .checked y ∈ r'.events → y ∈ Event.attempts r'.events) ∧
          (y ∈ way → m' = m → Event.failures r'.events = [] → .checked y ∈ r'.events) := by
  obtain ⟨ts, err, w, hv, hanswer, rfl⟩ := exists_visits_of_call hclock hcall
  have hm : ∀ a ∈ [m], e.Holds h m a := Engine.Holds.forall_mem_singleton
  refine ⟨hv.replays.clock_eq, fun n ↦ ?_, fun x hx ↦ ?_, fun x children hasked huntried ↦ ?_, ?_,
    fun error herror ↦ ?_⟩
  · rw [hv.replays.times_get?]
    exact if_congr hv.mem_reloads_iff.symm rfl rfl
  · obtain ⟨t, ht, -, rfl⟩ := hv.mem_attempts.mp hx
    have hasked := Event.mem_findings.mp (hv.mem_findings ht)
    rw [hv.dependencies_of_asked hasked, if_pos hx]
  · rw [hv.dependencies_of_asked hasked, if_neg huntried]
  · obtain ⟨es, hes, hperforms, -⟩ := hv.replays.does
    have hevents : w.events = es := hes
    rw [hevents]
    exact hperforms
  · obtain rfl := eq_some_of_answer (hanswer.trans herror)
    obtain ⟨a, ha, way, x, hway, hname, hstands⟩ := hv.exists_way
    obtain rfl := List.mem_singleton.mp ha
    have hfailures : Event.failures w.events = [x] := hv.replays.failures_eq.trans hstands.failed
    refine ⟨way, x, hname, hfailures, hname ▸ hv.not_mem_reloads_of_error, hway,
      fun y ↦ hv.waits_iff hway hstands, fun y hy ↦ ?_⟩
    -- Neither on the way nor where the call has not come to has a module had a turn.
    have hheld : e.Holds h a y := by
      rcases hy with hy | ⟨hy, -⟩
      · exact hv.holds_of_mem_way hway hy
      · exact hy
    have hturnless : ∀ t ∈ ts, t.module.name ≠ y.name := by
      rcases hy with hy | ⟨-, hunasked⟩
      · exact hstands.turnless y hy
      · intro t ht hname
        obtain rfl := hone _ _ (hv.holds hm ht).1 hheld hname
        exact hunasked t.children (Event.mem_findings.mp (hv.mem_findings ht))
    have hspared := hv.spares hm hsources hheld hturnless
    refine ⟨hspared, fun h' m' r' hnext ↦ ⟨fun hnewer hlooked ↦ ?_, ?_⟩⟩
    · exact hnext.mem_attempts hclock hsources hcall hspared hnewer hlooked
    · rintro hmem rfl hok
      exact hnext.checked_of_mem_way hclock hone hcall hway hmem hok

/-- The module with a source waits when the call fails, and the last one has not been come to. The
change of the source can still be seen. -/
theorem footprint_autoreload_stuck :
    let call := (start Engine.stuck ()).autoreload .stuck .lone false
    call.1 = .error ⟨"base", "refused"⟩ ∧ Event.Waits call.2.events .lone ∧
      call.2.Spares (.lone 1) .stuck .lone ∧ call.2.Spares (.lone 1) .stuck .right ∧
      call.2.engine.isNewer (.lone 1) .lone = true := by
  intro call
  have hcall : (start Engine.stuck ()).autoreload .stuck .lone false = (call.1, call.2) :=
    (Prod.eta _).symm
  have herror : call.1 = .error ⟨"base", "refused"⟩ := by decide
  have hfindings :
      Event.findings call.2.events = [(.lone, [.base, .right]), (.base, [.top]), (.top, [])] := by
    decide
  have hlooks : Event.looks call.2.events = [.top, .base] := by decide
  have hwaits : Event.Waits call.2.events .lone := by
    refine ⟨⟨[.base, .right], ?_⟩, ?_⟩
    · rw [← Event.mem_findings, hfindings]
      exact List.mem_cons_self
    · rw [← Event.mem_looks, hlooks]
      decide
  have hunasked : ∀ children, .asked .right children ∉ call.2.events := by
    intro children
    rw [← Event.mem_findings, hfindings]
    simp [Module.right, Module.lone, Module.base, Module.top]
  have hclock : Engine.stuck.Clocked := Engine.clocked_reloadedOnce "top"
  obtain ⟨-, -, -, -, -, hfailed⟩ :=
    footprint_autoreload hclock Engine.oneHandle_stuck Engine.sources_stuck hcall
  obtain ⟨way, x, -, -, -, -, hway, hspared⟩ := hfailed _ herror
  have hlone := (hspared .lone (.inl ((hway .lone).mp hwaits))).1
  have hright := (hspared .right (.inr ⟨.inr (.inl (by decide)), hunasked⟩)).1
  have hnewer : call.2.engine.isNewer (.lone 1) .lone = true :=
    (Engine.isNewer_eq_of_baseline? hlone.baseline).trans Engine.isNewer_stuck
  exact ⟨herror, hwaits, hlone, hright, hnewer⟩

end Run

end ModuleReload
