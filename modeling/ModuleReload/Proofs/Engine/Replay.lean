import ModuleReload.Proofs.Engine.Turn

/-!
# Turns in a row

Between two turns a call only asks for dependencies and says what it is about, which changes no
answer about times and sources (`Asks`). So what a call has done is known from its turns in the
order in which they come: `Replays` puts them in a row, and each fact about the row is one
induction. The main ones are that a module bears the tick of the call exactly if one of the turns
reloads it (`Replays.times_get?`), that a source is newer at the end exactly if it was at the start
and no turn has looked at it (`Replays.isNewer_iff`), and that nothing happens at all exactly if no
module is due at the start (`Replays.forall_isIdle_iff`).

The last one is where a row of turns is simpler than the walk: as long as nothing has been reloaded,
every turn sees the engine as it was at the start, so the first module that is due there is also the
first that is reloaded.
-/

namespace ModuleReload

variable {σ τ : Type} {h : Host σ τ} {tick : Tick}

/-! ## Asking -/

/-- The second run has done nothing since the first but ask for dependencies, remember what it was
told, and say things. -/
structure Run.Asks (r r' : Run σ τ) : Prop where
  roots : r'.engine.roots = r.engine.roots
  times : r'.engine.times = r.engine.times
  baselines : r'.engine.baselines = r.engine.baselines
  state : r'.state = r.state
  events : ∃ es, r'.events = r.events ++ es ∧ ∀ ev ∈ es, ev.isTalk = true

namespace Run.Asks

theorem refl (r : Run σ τ) : r.Asks r := ⟨rfl, rfl, rfl, rfl, [], by simp, by simp⟩

theorem trans {r₁ r₂ r₃ : Run σ τ} (h₁ : r₁.Asks r₂) (h₂ : r₂.Asks r₃) : r₁.Asks r₃ where
  roots := h₂.roots.trans h₁.roots
  times := h₂.times.trans h₁.times
  baselines := h₂.baselines.trans h₁.baselines
  state := h₂.state.trans h₁.state
  events := by
    obtain ⟨es, hes, htalk⟩ := h₁.events
    obtain ⟨fs, hfs, htalk'⟩ := h₂.events
    refine ⟨es ++ fs, by rw [hfs, hes, List.append_assoc], ?_⟩
    rw [List.forall_mem_append]
    exact ⟨htalk, htalk'⟩

theorem isNewer {r r' : Run σ τ} (ha : r.Asks r') (fs : FileSystem) (m : Module) :
    r'.engine.isNewer fs m = r.engine.isNewer fs m := by
  rw [Engine.isNewer, Engine.isNewer, ha.baselines]

theorem baseline? {r r' : Run σ τ} (ha : r.Asks r') (fs : FileSystem) (n : Module) :
    r'.engine.baseline? fs n = r.engine.baseline? fs n := by
  rw [Engine.baseline?, Engine.baseline?, ha.baselines]

theorem isBehind {r r' : Run σ τ} (ha : r.Asks r') (m c : Module) :
    r'.engine.isBehind m c = r.engine.isBehind m c :=
  Engine.isBehind_congr (fun n ↦ by rw [ha.times]) m c

theorem log (r : Run σ τ) (ns : List Notice) : r.Asks (r.log (ns.map .said)) where
  roots := rfl
  times := rfl
  baselines := rfl
  state := rfl
  events := by
    refine ⟨ns.map .said, rfl, fun ev hev ↦ ?_⟩
    obtain ⟨n, -, rfl⟩ := List.mem_map.mp hev
    rfl

/-! Nothing but questions and notices comes into the account. -/

theorem filterMap_events {α : Type} {r r' : Run σ τ} (ha : r.Asks r') {f : Event τ → Option α}
    (hsaid : ∀ n, f (.said n) = none) (hasked : ∀ m children, f (.asked m children) = none) :
    r'.events.filterMap f = r.events.filterMap f := by
  obtain ⟨es, hes, htalk⟩ := ha.events
  have hnone : es.filterMap f = [] := by
    refine List.filterMap_eq_nil_iff.mpr fun ev hev ↦ ?_
    cases ev with
    | said n => exact hsaid n
    | asked m children => exact hasked m children
    | _ => exact absurd (htalk _ hev) Bool.false_ne_true
  rw [hes, List.filterMap_append, hnone, List.append_nil]

theorem looks {r r' : Run σ τ} (ha : r.Asks r') :
    Event.looks r'.events = Event.looks r.events :=
  ha.filterMap_events (fun _ ↦ rfl) fun _ _ ↦ rfl

theorem reloads {r r' : Run σ τ} (ha : r.Asks r') :
    Event.reloads r'.events = Event.reloads r.events :=
  ha.filterMap_events (fun _ ↦ rfl) fun _ _ ↦ rfl

theorem attempts {r r' : Run σ τ} (ha : r.Asks r') :
    Event.attempts r'.events = Event.attempts r.events :=
  ha.filterMap_events (fun _ ↦ rfl) fun _ _ ↦ rfl

theorem failures {r r' : Run σ τ} (ha : r.Asks r') :
    Event.failures r'.events = Event.failures r.events :=
  ha.filterMap_events (fun _ ↦ rfl) fun _ _ ↦ rfl

end Run.Asks

/-! ## Rows of turns -/

/-- From the first walk to the second the turns come in a row, with nothing but asking in
between. -/
inductive Replays (h : Host σ τ) (tick : Tick) : Walk σ τ → List (Turn σ τ) → Walk σ τ → Prop
  | nil {w w' : Walk σ τ} (ha : w.Asks w'.toRun) : Replays h tick w [] w'
  | cons {w w' : Walk σ τ} {t : Turn σ τ} {ts : List (Turn σ τ)} (ha : w.Asks t.before.toRun)
      (rest : Replays h tick (t.after h tick) ts w') : Replays h tick w (t :: ts) w'

namespace Replays

variable {w w₁ w' : Walk σ τ} {ts us : List (Turn σ τ)}

theorem of_asks (ha : w.Asks w₁.toRun) (hr : Replays h tick w₁ ts w') :
    Replays h tick w ts w' := by
  cases hr with
  | nil ha' => exact .nil (ha.trans ha')
  | cons ha' rest => exact .cons (ha.trans ha') rest

theorem append (h₁ : Replays h tick w ts w₁) (h₂ : Replays h tick w₁ us w') :
    Replays h tick w (ts ++ us) w' := by
  induction h₁ with
  | nil ha => exact of_asks ha h₂
  | cons ha _ ih => exact .cons ha (ih h₂)

theorem split {pre post : List (Turn σ τ)} {t : Turn σ τ}
    (hr : Replays h tick w (pre ++ t :: post) w') :
    Replays h tick w pre t.before ∧ Replays h tick (t.after h tick) post w' := by
  induction pre generalizing w with
  | nil =>
    cases hr with
    | cons ha rest => exact ⟨.nil ha, rest⟩
  | cons s pre ih =>
    cases hr with
    | cons ha rest =>
      obtain ⟨h₁, h₂⟩ := ih rest
      exact ⟨.cons ha h₁, h₂⟩

/-! ## What a row changes -/

theorem roots_eq (hr : Replays h tick w ts w') : w'.engine.roots = w.engine.roots := by
  induction hr with
  | nil ha => exact ha.roots
  | cons ha _ ih => rw [ih, Turn.after_roots, ha.roots]

theorem clock_eq (hr : Replays h tick w ts w') :
    w'.engine.times.clock = w.engine.times.clock := by
  induction hr with
  | nil ha => rw [ha.times]
  | cons ha _ ih => rw [ih, Turn.after_clock, ha.times]

/-- The modules that are reloaded bear the tick of the call, and all others the time they had. -/
theorem times_get? (hr : Replays h tick w ts w') (n : String) :
    w'.engine.times.get? n =
      if Turn.anyReload h tick ts n = true then some tick else w.engine.times.get? n := by
  induction hr with
  | nil ha => simp [ha.times, Turn.anyReload]
  | @cons w w' t ts ha _ ih =>
    rw [ih, Turn.after_times_get?, ha.times, Turn.anyReload_cons]
    cases Turn.anyReload h tick ts n with
    | true => simp
    | false => simp only [Bool.false_eq_true, if_false, Bool.or_false, Bool.and_eq_true,
        beq_iff_eq, eq_comm (a := n)]

theorem times_of_forall (hr : Replays h tick w ts w') {n : String}
    (hn : ∀ t ∈ ts, t.module.name = n → t.isReload h tick = false) :
    w'.engine.times.get? n = w.engine.times.get? n := by
  rw [hr.times_get?, Turn.anyReload_eq_false.mpr hn, if_neg (by decide)]

/-- If all times before the turns are earlier than the tick, then a module is behind another one at
the end if it was not reloaded, and the other one either was, or the module was behind it at the
start. -/
theorem isBehind_iff (hr : Replays h tick w ts w')
    (hw : ∀ n u, w.engine.times.get? n = some u → u < tick) (m c : Module) :
    w'.engine.isBehind m c = true ↔ Turn.anyReload h tick ts m.name = false ∧
      (Turn.anyReload h tick ts c.name = true ∨ w.engine.isBehind m c = true) := by
  have hearlier (n : String) : Walk.reloadedSince (w.engine.times.get? n) (some tick) = true := by
    rw [Walk.reloadedSince, Option.all_eq_true]
    intro u hu
    exact decide_eq_true (hw n u hu)
  have hlater (n : String) : Walk.reloadedSince (some tick) (w.engine.times.get? n) = false := by
    cases hn : w.engine.times.get? n with
    | none => rfl
    | some u =>
      have hu := hw n u hn
      simp only [Walk.reloadedSince, Option.all_some, decide_eq_false_iff_not]
      exact Nat.not_lt_of_lt hu
  rw [Engine.isBehind, hr.times_get?, hr.times_get?]
  cases Turn.anyReload h tick ts m.name with
  | true =>
    cases Turn.anyReload h tick ts c.name with
    | true => simp [Walk.reloadedSince]
    | false => simp [hlater]
  | false =>
    cases Turn.anyReload h tick ts c.name with
    | true => simp [hearlier]
    | false => simp [Engine.isBehind]

/-- A source is newer after the turns if it was before them and none has looked at it. -/
theorem isNewer_iff (hr : Replays h tick w ts w') (n : Module) :
    w'.engine.isNewer h.files n = true ↔
      w.engine.isNewer h.files n = true ∧ ∀ t ∈ ts, ¬t.module.SameSource h.files n := by
  induction hr with
  | nil ha => simp [ha.isNewer]
  | cons ha _ ih => rw [ih, Turn.after_isNewer, ha.isNewer, List.forall_mem_cons, and_assoc]

theorem isNewer_eq_false (hr : Replays h tick w ts w') {n : Module}
    (hn : w.engine.isNewer h.files n = false) : w'.engine.isNewer h.files n = false := by
  rw [← Bool.not_eq_true, hr.isNewer_iff, hn]
  simp

theorem baseline?_eq (hr : Replays h tick w ts w') {n : Module}
    (hother : ∀ t ∈ ts, ¬t.module.SameSource h.files n) :
    w'.engine.baseline? h.files n = w.engine.baseline? h.files n := by
  induction hr with
  | nil ha => exact ha.baseline? _ n
  | cons ha _ ih =>
    rw [List.forall_mem_cons] at hother
    rw [ih hother.2, Turn.after_baseline? h tick hother.1, ha.baseline?]

theorem looks_eq (hr : Replays h tick w ts w') :
    Event.looks w'.events = Event.looks w.events ++ ts.map Turn.module := by
  induction hr with
  | nil ha => simp [ha.looks]
  | cons ha _ ih => rw [ih, Turn.looks_after, ha.looks]; simp

theorem reloads_eq (hr : Replays h tick w ts w') :
    Event.reloads w'.events =
      Event.reloads w.events ++ (ts.filter (Turn.isReload h tick)).map Turn.module := by
  induction hr with
  | nil ha => simp [ha.reloads]
  | @cons w w' t ts ha _ ih =>
    rw [ih, Turn.reloads_after, ha.reloads, List.filter_cons]
    split <;> simp

theorem attempts_eq (hr : Replays h tick w ts w') :
    Event.attempts w'.events =
      Event.attempts w.events ++ (ts.filter (!Turn.isIdle h.files ·)).map Turn.module := by
  induction hr with
  | nil ha => simp [ha.attempts]
  | @cons w w' t ts ha _ ih =>
    rw [ih, Turn.attempts_after, ha.attempts, List.filter_cons]
    cases t.isIdle h.files <;> simp

theorem failures_eq (hr : Replays h tick w ts w') :
    Event.failures w'.events =
      Event.failures w.events ++ (ts.filter (Turn.isFailure h tick)).map Turn.module := by
  induction hr with
  | nil ha => simp [ha.failures]
  | @cons w w' t ts ha _ ih =>
    rw [ih, Turn.failures_after, ha.failures, List.filter_cons]
    split <;> simp

theorem exists_events (hr : Replays h tick w ts w') : ∃ es, w'.events = w.events ++ es := by
  induction hr with
  | nil ha =>
    obtain ⟨es, hes, -⟩ := ha.events
    exact ⟨es, hes⟩
  | @cons w w' t ts ha _ ih =>
    obtain ⟨es, hes, -⟩ := ha.events
    obtain ⟨fs, hfs⟩ := t.exists_events_after h tick
    obtain ⟨gs, hgs⟩ := ih
    exact ⟨es ++ .checked t.module :: fs ++ gs, by rw [hgs, hfs, hes]; simp⟩

/-- What comes into the account after the dependencies of a module have been seen to begins with a
look at the module. -/
theorem exists_events_of_turn {pre post : List (Turn σ τ)} {t : Turn σ τ}
    (hr : Replays h tick w (pre ++ t :: post) w') :
    ∃ es, w'.events = t.before.events ++ .checked t.module :: es := by
  obtain ⟨es, hes⟩ := t.exists_events_after h tick
  obtain ⟨fs, hfs⟩ := hr.split.2.exists_events
  exact ⟨es ++ fs, by rw [hfs, hes]; simp⟩

/-! ## Rows in which nothing happens -/

theorem isReload_of_isIdle {t : Turn σ τ} (ht : t.isIdle h.files = true) :
    t.isReload h tick = false := by
  rw [← Bool.not_eq_true, Turn.isReload_iff, ht]
  simp

theorem state_of_forall_isIdle (hr : Replays h tick w ts w')
    (hts : ∀ t ∈ ts, t.isIdle h.files = true) : w'.state = w.state := by
  induction hr with
  | nil ha => exact ha.state
  | cons ha _ ih =>
    rw [List.forall_mem_cons] at hts
    rw [ih hts.2, Turn.after_state, if_pos hts.1, ha.state]

/-- Where nothing happens, a source is as new after the turns as it was before them: what has been
looked at was not newer. -/
theorem isNewer_of_forall_isIdle (hr : Replays h tick w ts w')
    (hts : ∀ t ∈ ts, t.isIdle h.files = true) (n : Module) :
    w'.engine.isNewer h.files n = w.engine.isNewer h.files n := by
  induction hr with
  | nil ha => exact ha.isNewer _ n
  | @cons w w' t ts ha _ ih =>
    rw [List.forall_mem_cons] at hts
    have hidle := (Engine.isDue_eq_false.mp (Turn.isIdle_iff.mp hts.1).2).1
    rw [ih hts.2, ← ha.isNewer, Bool.eq_iff_iff, Turn.after_isNewer]
    constructor
    · intro hn
      exact hn.1
    · intro hn
      refine ⟨hn, fun hsame ↦ ?_⟩
      rw [Engine.isNewer_eq_of_sameSource hsame, hn] at hidle
      exact absurd hidle (by decide)

theorem times_of_forall_isIdle (hr : Replays h tick w ts w')
    (hts : ∀ t ∈ ts, t.isIdle h.files = true) (n : String) :
    w'.engine.times.get? n = w.engine.times.get? n :=
  hr.times_of_forall fun t ht _ ↦ isReload_of_isIdle (hts t ht)

/-- As long as nothing has happened, a module is due exactly if it was at the start. -/
theorem isDue_of_forall_isIdle (hr : Replays h tick w ts w')
    (hts : ∀ t ∈ ts, t.isIdle h.files = true) (m : Module) (children : List Module) :
    w'.engine.isDue h.files m children = w.engine.isDue h.files m children := by
  rw [Engine.isDue, Engine.isDue, hr.isNewer_of_forall_isIdle hts]
  congr 2
  funext c
  exact Engine.isBehind_congr (hr.times_of_forall_isIdle hts) m c

/-- **Nothing happens exactly if nothing is due at the start.** The first turn in which something
happens would see the engine as it was at the start. -/
theorem forall_isIdle_iff (hr : Replays h tick w ts w') :
    (∀ t ∈ ts, t.isIdle h.files = true) ↔
      ∀ t ∈ ts, t.force = false ∧ w.engine.isDue h.files t.module t.children = false := by
  constructor
  · intro hts t ht
    obtain ⟨pre, post, rfl⟩ := List.append_of_mem ht
    have hpre := hr.split.1.isDue_of_forall_isIdle (fun s hs ↦ hts s (List.mem_append_left _ hs))
    rw [← hpre]
    exact Turn.isIdle_iff.mp (hts t ht)
  · intro hts
    -- What is due at a later turn was due at the start, since nothing happens in the first one.
    induction hr with
    | nil => simp
    | @cons w w' t ts ha rest ih =>
      rw [List.forall_mem_cons] at hts
      have hrow : Replays h tick w [] t.before := .nil ha
      have hidle : t.isIdle h.files = true := by
        rw [Turn.isIdle_iff, hrow.isDue_of_forall_isIdle (by simp)]
        exact hts.1
      have hone : Replays h tick w [t] (t.after h tick) := .cons ha (.nil (.refl _))
      refine List.forall_mem_cons.mpr ⟨hidle, ih fun s hs ↦ ?_⟩
      rw [hone.isDue_of_forall_isIdle (by simpa using hidle)]
      exact hts.2 s hs

end Replays

end ModuleReload
