import ModuleReload.Proofs.Engine.Sight

/-!
# The turn of a module

A call visits a module in two halves. First it sees to the module's dependencies; then comes the
module's own *turn*, in which its source is looked at and it is reloaded if that is due. Only turns
change times, baselines and the state of the host, so a call is known by its turns.

In its turn a module is due if it is forced, if its source is newer, or if it is behind one of its
dependencies **at that moment**. The walk decides this while it visits the dependencies, from what
each visit returns and from the times in between; that it comes to the same is shown where the walk
is taken apart. `Turn.outcome_cases` says all that a turn can do, and the lemmas after it say what
that means for each question that can be put to an engine.
-/

namespace ModuleReload

variable {σ τ : Type}

/-! ## Accounts -/

namespace Event

/-- The modules whose sources were looked at, in order. -/
def looks (es : List (Event τ)) : List Module :=
  es.filterMap fun
    | .checked m => some m
    | _ => none

/-- The modules that were reinitialized, in order. -/
def reloads (es : List (Event τ)) : List Module :=
  es.filterMap fun
    | .reinitialized m => some m
    | _ => none

/-- The modules on which the host was asked for a reinitialization, in order. -/
def attempts (es : List (Event τ)) : List Module :=
  es.filterMap fun
    | .reinitialized m => some m
    | .failed m => some m
    | _ => none

/-- The modules whose reinitialization failed, in order. -/
def failures (es : List (Event τ)) : List Module :=
  es.filterMap fun
    | .failed m => some m
    | _ => none

/-- The modules whose dependencies were asked for, in order, with the dependencies found. -/
def findings (es : List (Event τ)) : List (Module × List Module) :=
  es.filterMap fun
    | .asked m children => some (m, children)
    | _ => none

/-- Whether an event is only a question or a notice. -/
def isTalk : Event τ → Bool
  | .said _ => true
  | .asked _ _ => true
  | _ => false

@[simp] theorem looks_append (es fs : List (Event τ)) : looks (es ++ fs) = looks es ++ looks fs :=
  List.filterMap_append

@[simp] theorem reloads_append (es fs : List (Event τ)) :
    reloads (es ++ fs) = reloads es ++ reloads fs :=
  List.filterMap_append

@[simp] theorem findings_append (es fs : List (Event τ)) :
    findings (es ++ fs) = findings es ++ findings fs :=
  List.filterMap_append

@[simp] theorem findings_said (ns : List Notice) : findings (ns.map (said (τ := τ))) = [] := by
  simp [findings, List.filterMap_map]

theorem mem_filterMap_iff {α : Type} {es : List (Event τ)} {f : Event τ → Option α}
    {g : α → Event τ} (hf : ∀ ev a, f ev = some a ↔ ev = g a) (a : α) :
    a ∈ es.filterMap f ↔ g a ∈ es := by
  simp only [List.mem_filterMap, hf, exists_eq_right]

theorem mem_findings {es : List (Event τ)} {x : Module} {children : List Module} :
    (x, children) ∈ findings es ↔ .asked x children ∈ es := by
  rw [findings]
  refine mem_filterMap_iff (g := fun p ↦ .asked p.1 p.2) (fun ev p ↦ ?_) (x, children)
  cases ev <;> simp [Prod.ext_iff]

theorem mem_looks {es : List (Event τ)} {x : Module} : x ∈ looks es ↔ .checked x ∈ es := by
  rw [looks]
  refine mem_filterMap_iff (fun ev x ↦ ?_) x
  cases ev <;> simp

theorem mem_failures {es : List (Event τ)} {x : Module} : x ∈ failures es ↔ .failed x ∈ es := by
  rw [failures]
  refine mem_filterMap_iff (fun ev x ↦ ?_) x
  cases ev <;> simp

end Event

/-! ## Settling a module -/

/-- What the host does for the reload of a module, hooks included: why it failed, if it did, and the
state after it. -/
def Host.attempt (h : Host σ τ) (state : σ) (m : Module) : Option String × σ :=
  match h.reinitialize (h.save state m).2 m with
  | (some cause, state') => (some cause, state')
  | (none, state') => (none, h.restore state' m (h.save state m).1)

namespace Run

theorem isStale_eq (h : Host σ τ) (m : Module) (r : Run σ τ) :
    r.isStale h m =
      (r.engine.isNewer h.files m,
        ⟨r.engine.look h.files m, r.state, r.events ++ [.checked m]⟩) := by
  rw [isStale, Engine.isNewer, Engine.look, log]
  cases Dependencies.sourceOf? h.files m <;> rfl

/-- The second half of a visit: a look at the source, and a reload if that is due. -/
def settle (h : Host σ τ) (tick : Tick) (due : Bool) (m : Module) (r : Run σ τ) :
    Except ReloadError Bool × Run σ τ :=
  let (stale, r) := r.isStale h m
  if due || stale then
    match r.reloadAt h tick m with
    | (some e, r) => (.error e, r)
    | (none, r) => (.ok true, r)
  else (.ok false, r)

end Run

/-- The turn of a module in a call. -/
structure Turn (σ τ : Type) where
  module : Module
  /-- The dependencies as the call found them when it came to the module. -/
  children : List Module
  /-- Whether the module is reloaded in any case. -/
  force : Bool
  /-- The walk when the dependencies have been seen to. -/
  before : Walk σ τ

namespace Turn

/-- Whether the module is to be reloaded whether or not its source has changed. -/
def due (t : Turn σ τ) : Bool :=
  t.force || t.children.any (t.before.engine.isBehind t.module)

def isIdle (fs : FileSystem) (t : Turn σ τ) : Bool :=
  !(t.due || t.before.engine.isNewer fs t.module)

/-- What the turn comes to, and the run after it. -/
def outcome (h : Host σ τ) (tick : Tick) (t : Turn σ τ) : Except ReloadError Bool × Run σ τ :=
  t.before.settle h tick t.due t.module

/-- Whether the module is reinitialized in the turn. -/
def isReload (h : Host σ τ) (tick : Tick) (t : Turn σ τ) : Bool :=
  (t.outcome h tick).1 matches .ok true

/-- Whether the reinitialization of the module fails in the turn. -/
def isFailure (h : Host σ τ) (tick : Tick) (t : Turn σ τ) : Bool :=
  (t.outcome h tick).1 matches .error _

def after (h : Host σ τ) (tick : Tick) (t : Turn σ τ) : Walk σ τ :=
  t.before.put (t.outcome h tick).2

theorem isIdle_iff {fs : FileSystem} {t : Turn σ τ} :
    t.isIdle fs = true ↔ t.force = false ∧
      t.before.engine.isDue fs t.module t.children = false := by
  simp only [isIdle, due, Engine.isDue, Bool.not_eq_true', Bool.or_eq_false_iff]
  constructor
  · rintro ⟨⟨hforce, hbehind⟩, hnewer⟩
    exact ⟨hforce, hnewer, hbehind⟩
  · rintro ⟨hforce, hnewer, hbehind⟩
    exact ⟨⟨hforce, hbehind⟩, hnewer⟩

theorem isIdle_eq_false_of_isBehind {fs : FileSystem} {t : Turn σ τ} {c : Module}
    (hc : c ∈ t.children) (hbehind : t.before.engine.isBehind t.module c = true) :
    t.isIdle fs = false := by
  rw [← Bool.not_eq_true, isIdle_iff, Engine.isDue_eq_false]
  rintro ⟨-, -, hcalm⟩
  rw [hcalm c hc] at hbehind
  exact absurd hbehind (by decide)

/-- **All that a turn can do.** It leaves the host alone, or the module is reinitialized, or its
reinitialization fails. In each case its source has been looked at. -/
theorem outcome_cases (h : Host σ τ) (tick : Tick) (t : Turn σ τ) :
    (t.isIdle h.files = true ∧ t.outcome h tick =
      (.ok false, ⟨t.before.engine.look h.files t.module, t.before.state,
        t.before.events ++ [.checked t.module]⟩)) ∨
    (t.isIdle h.files = false ∧ (h.attempt t.before.state t.module).1 = none ∧
      ∃ snapshot notice, t.outcome h tick =
        (.ok true, ⟨Run.noteReload h tick t.module
            { t.before.engine.look h.files t.module with
              dependencies := t.before.engine.dependencies.erase t.module.name },
          (h.attempt t.before.state t.module).2,
          t.before.events ++ [.checked t.module, .said notice, .saved t.module snapshot,
            .reinitialized t.module, .restored t.module snapshot]⟩)) ∨
    (t.isIdle h.files = false ∧
      ∃ cause snapshot notice, (h.attempt t.before.state t.module).1 = some cause ∧
        t.outcome h tick =
          (.error ⟨t.module.name, cause⟩, ⟨{ t.before.engine.look h.files t.module with
              dependencies := t.before.engine.dependencies.erase t.module.name },
            (h.attempt t.before.state t.module).2,
            t.before.events ++ [.checked t.module, .said notice, .saved t.module snapshot,
              .failed t.module]⟩)) := by
  rw [outcome, Run.settle, Run.isStale_eq, isIdle]
  cases hdue : t.due || t.before.engine.isNewer h.files t.module with
  | false => exact .inl ⟨rfl, by simp [hdue]⟩
  | true =>
    right
    simp only [Bool.not_true, hdue, if_true, true_and, Run.reloadAt, Run.say, Run.log,
      Host.attempt]
    cases hr : h.reinitialize (h.save t.before.state t.module).2 t.module with
    | mk cause state =>
      cases cause with
      | some cause =>
        refine .inr ⟨cause, (h.save t.before.state t.module).1,
          ⟨"reload", .always, "reloading " ++ t.module.name⟩, rfl, ?_⟩
        simp
      | none =>
        refine .inl ⟨rfl, (h.save t.before.state t.module).1,
          ⟨"reload", .always, "reloading " ++ t.module.name⟩, ?_⟩
        simp

/-! ## What a turn changes -/

variable (h : Host σ τ) (tick : Tick) (t : Turn σ τ)

@[simp] theorem after_visited : (t.after h tick).visited = t.before.visited := rfl

@[simp] theorem after_roots : (t.after h tick).engine.roots = t.before.engine.roots := by
  rw [after, Walk.put]
  obtain ⟨-, ho⟩ | ⟨-, -, _, _, ho⟩ | ⟨-, _, _, _, -, ho⟩ := t.outcome_cases h tick <;>
    rw [ho] <;> rfl

@[simp] theorem after_clock :
    (t.after h tick).engine.times.clock = t.before.engine.times.clock := by
  rw [after, Walk.put]
  obtain ⟨-, ho⟩ | ⟨-, -, _, _, ho⟩ | ⟨-, _, _, _, -, ho⟩ := t.outcome_cases h tick <;>
    rw [ho] <;> rfl

theorem outcome_eq_ok_false_iff :
    (t.outcome h tick).1 = .ok false ↔ t.isIdle h.files = true := by
  obtain ⟨hi, ho⟩ | ⟨hi, -, _, _, ho⟩ | ⟨hi, _, _, _, -, ho⟩ := t.outcome_cases h tick <;>
    simp [hi, ho]

theorem isReload_iff :
    t.isReload h tick = true ↔
      t.isIdle h.files = false ∧ (h.attempt t.before.state t.module).1 = none := by
  rw [isReload]
  obtain ⟨hi, ho⟩ | ⟨hi, ha, _, _, ho⟩ | ⟨hi, _, _, _, ha, ho⟩ := t.outcome_cases h tick <;>
    simp_all

theorem isReload_of_outcome {h : Host σ τ} {tick : Tick} {t : Turn σ τ} {b : Bool}
    (ho : (t.outcome h tick).1 = .ok b) : t.isReload h tick = b := by
  rw [isReload, ho]
  cases b <;> rfl

theorem isFailure_of_error {h : Host σ τ} {tick : Tick} {t : Turn σ τ} {e : ReloadError}
    (ho : (t.outcome h tick).1 = .error e) : t.isFailure h tick = true := by
  rw [isFailure, ho]

theorem isFailure_of_ok {h : Host σ τ} {tick : Tick} {t : Turn σ τ} {b : Bool}
    (ho : (t.outcome h tick).1 = .ok b) : t.isFailure h tick = false := by
  rw [isFailure, ho]

theorem exists_cause_of_outcome {h : Host σ τ} {tick : Tick} {t : Turn σ τ} {e : ReloadError}
    (ho : (t.outcome h tick).1 = .error e) :
    ∃ cause, (h.attempt t.before.state t.module).1 = some cause := by
  obtain ⟨-, ho'⟩ | ⟨-, -, _, _, ho'⟩ | ⟨-, cause, _, _, ha, -⟩ := t.outcome_cases h tick
  · simp [ho'] at ho
  · simp [ho'] at ho
  · exact ⟨cause, ha⟩

theorem module_of_outcome {h : Host σ τ} {tick : Tick} {t : Turn σ τ} {e : ReloadError}
    (ho : (t.outcome h tick).1 = .error e) : e.module = t.module.name := by
  obtain ⟨-, ho'⟩ | ⟨-, -, _, _, ho'⟩ | ⟨-, cause, _, _, -, ho'⟩ := t.outcome_cases h tick
  · simp [ho'] at ho
  · simp [ho'] at ho
  · rw [ho'] at ho
    rw [← Except.error.inj ho]

/-- The module of a turn that reloads it bears the tick of the call, and all other times stay. -/
theorem after_times_get? (n : String) :
    (t.after h tick).engine.times.get? n =
      if t.isReload h tick = true ∧ n = t.module.name then some tick
      else t.before.engine.times.get? n := by
  rw [after, Walk.put, isReload]
  obtain ⟨hi, ho⟩ | ⟨hi, ha, _, _, ho⟩ | ⟨hi, _, _, _, ha, ho⟩ := t.outcome_cases h tick
  · simp [ho]
  · simp only [ho, Run.noteReload, ReloadTimes.get?, ReloadTimes.record, Table.get?_insert,
      true_and]
    rfl
  · simp [ho]

/-- The dependencies of a module are forgotten if its reinitialization is tried, and remembered
otherwise. -/
theorem after_dependencies_get? (n : String) :
    (t.after h tick).engine.dependencies.get? n =
      if t.isIdle h.files = false ∧ n = t.module.name then none
      else t.before.engine.dependencies.get? n := by
  rw [after, Walk.put]
  obtain ⟨hi, ho⟩ | ⟨hi, ha, _, _, ho⟩ | ⟨hi, _, _, _, ha, ho⟩ := t.outcome_cases h tick <;>
    simp [hi, ho, Run.noteReload, Table.get?_erase]

/-- A turn settles the source that it looks at and no other, whatever it comes to. -/
theorem after_isNewer (n : Module) :
    (t.after h tick).engine.isNewer h.files n = true ↔
      t.before.engine.isNewer h.files n = true ∧ ¬t.module.SameSource h.files n := by
  rw [after, Walk.put]
  obtain ⟨hi, ho⟩ | ⟨hi, ha, _, _, ho⟩ | ⟨hi, _, _, _, ha, ho⟩ := t.outcome_cases h tick
  · rw [ho]
    exact Engine.isNewer_look
  · rw [ho]
    -- The reload looks at the source once more.
    have htwice : ((t.before.engine.look h.files t.module).look h.files t.module).isNewer h.files n
        = true ↔ t.before.engine.isNewer h.files n = true ∧ ¬t.module.SameSource h.files n := by
      rw [Engine.isNewer_look, Engine.isNewer_look, and_assoc, and_self]
    exact htwice
  · rw [ho]
    exact Engine.isNewer_look

variable {t} in
/-- A turn leaves the baselines of other sources alone. -/
theorem after_baseline? {n : Module} (hother : ¬t.module.SameSource h.files n) :
    (t.after h tick).engine.baseline? h.files n = t.before.engine.baseline? h.files n := by
  have honce := Engine.baseline?_look (e := t.before.engine) hother
  rw [after, Walk.put]
  obtain ⟨-, ho⟩ | ⟨-, -, _, _, ho⟩ | ⟨-, _, _, _, -, ho⟩ := t.outcome_cases h tick
  · rw [ho]
    exact honce
  · -- The reload looks at the source once more.
    have htwice := Engine.baseline?_look (e := t.before.engine.look h.files t.module) hother
    rw [ho]
    exact htwice.trans honce
  · rw [ho]
    exact honce

theorem after_state :
    (t.after h tick).state =
      if t.isIdle h.files = true then t.before.state
      else (h.attempt t.before.state t.module).2 := by
  rw [after, Walk.put]
  obtain ⟨hi, ho⟩ | ⟨hi, ha, _, _, ho⟩ | ⟨hi, _, _, _, ha, ho⟩ := t.outcome_cases h tick <;>
    simp [hi, ho]

/-- Whether one of the turns reloads the module of a name. -/
def anyReload (h : Host σ τ) (tick : Tick) (ts : List (Turn σ τ)) (n : String) : Bool :=
  ts.any fun t ↦ t.isReload h tick && t.module.name == n

theorem anyReload_cons (ts : List (Turn σ τ)) (n : String) :
    anyReload h tick (t :: ts) n =
      (t.isReload h tick && t.module.name == n || anyReload h tick ts n) := rfl

theorem anyReload_append (ts us : List (Turn σ τ)) (n : String) :
    anyReload h tick (ts ++ us) n = (anyReload h tick ts n || anyReload h tick us n) :=
  List.any_append

variable {h tick} in
theorem anyReload_iff {ts : List (Turn σ τ)} {n : String} :
    anyReload h tick ts n = true ↔ ∃ t ∈ ts, t.isReload h tick = true ∧ t.module.name = n := by
  simp [anyReload]

variable {h tick} in
theorem anyReload_eq_false {ts : List (Turn σ τ)} {n : String} :
    anyReload h tick ts n = false ↔
      ∀ t ∈ ts, t.module.name = n → t.isReload h tick = false := by
  rw [← Bool.not_eq_true, anyReload_iff]
  constructor
  · intro hno t ht hname
    rw [← Bool.not_eq_true]
    intro hreload
    exact hno ⟨t, ht, hreload, hname⟩
  · rintro hno ⟨t, ht, hreload, hname⟩
    rw [hno t ht hname] at hreload
    exact absurd hreload (by decide)

/-! ### On the account -/

theorem looks_after :
    Event.looks (t.after h tick).events = Event.looks t.before.events ++ [t.module] := by
  rw [after, Walk.put]
  obtain ⟨hi, ho⟩ | ⟨hi, ha, _, _, ho⟩ | ⟨hi, _, _, _, ha, ho⟩ := t.outcome_cases h tick <;>
    simp [ho, Event.looks]

theorem reloads_after :
    Event.reloads (t.after h tick).events =
      Event.reloads t.before.events ++ if t.isReload h tick = true then [t.module] else [] := by
  rw [after, Walk.put, isReload]
  obtain ⟨hi, ho⟩ | ⟨hi, ha, _, _, ho⟩ | ⟨hi, _, _, _, ha, ho⟩ := t.outcome_cases h tick <;>
    simp [ho, Event.reloads]

theorem attempts_after :
    Event.attempts (t.after h tick).events =
      Event.attempts t.before.events ++
        if t.isIdle h.files = false then [t.module] else [] := by
  rw [after, Walk.put]
  obtain ⟨hi, ho⟩ | ⟨hi, ha, _, _, ho⟩ | ⟨hi, _, _, _, ha, ho⟩ := t.outcome_cases h tick <;>
    simp [hi, ho, Event.attempts]

theorem failures_after :
    Event.failures (t.after h tick).events =
      Event.failures t.before.events ++ if t.isFailure h tick = true then [t.module] else [] := by
  rw [after, Walk.put, isFailure]
  obtain ⟨hi, ho⟩ | ⟨hi, ha, _, _, ho⟩ | ⟨hi, _, _, _, ha, ho⟩ := t.outcome_cases h tick <;>
    simp [ho, Event.failures]

theorem findings_after :
    Event.findings (t.after h tick).events = Event.findings t.before.events := by
  rw [after, Walk.put]
  obtain ⟨hi, ho⟩ | ⟨hi, ha, _, _, ho⟩ | ⟨hi, _, _, _, ha, ho⟩ := t.outcome_cases h tick <;>
    simp [ho, Event.findings]

/-- The first thing that happens in a turn is a look at the source of its module. -/
theorem exists_events_after :
    ∃ es, (t.after h tick).events = t.before.events ++ .checked t.module :: es := by
  rw [after, Walk.put]
  obtain ⟨-, ho⟩ | ⟨-, -, _, _, ho⟩ | ⟨-, _, _, _, -, ho⟩ := t.outcome_cases h tick <;>
    exact ⟨_, by rw [ho]⟩

end Turn

end ModuleReload
