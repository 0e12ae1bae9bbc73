import ModuleReload.Proofs.Engine.Course

/-!
# Calls that do nothing

As long as a call has only looked around (`Walk.Rests`), every answer it gets is the one that the
engine would have given at the start. So the modules it comes to are those that the engine reaches
at rest (`Engine.Reaches`), and whether it does anything can be told beforehand: it does nothing
exactly if no module that is reached has changed or is behind one of its dependencies
(`Run.attempts_autoreload_eq_nil_iff`). This holds on every graph of dependencies. On a cycle a
module is judged before some of its dependencies have had their turn, but until something happens
that makes no difference.
-/

namespace ModuleReload

variable {σ τ : Type} {h : Host σ τ} {tick : Tick}

/-! ## Modules at hand -/

namespace Engine

/-- The first module reaches the second along dependencies as a call would find them. -/
def Reaches (h : Host σ τ) (state : σ) (e : Engine) : Module → Module → Prop :=
  Module.ReachesBy (e.childrenOf h state)

/-- The handles at hand when a call begins: the module that it is called for, the loaded modules,
and those that are remembered as dependencies. -/
def Holds (h : Host σ τ) (m : Module) (e : Engine) (a : Module) : Prop :=
  a = m ∨ a ∈ h.modules ∨ ∃ n children, e.dependencies.get? n = some children ∧ a ∈ children

/-- There is one handle of each name. -/
def OneHandle (h : Host σ τ) (m : Module) (e : Engine) : Prop :=
  ∀ a b, e.Holds h m a → e.Holds h m b → a.name = b.name → a = b

variable {state : σ} {e : Engine} {m : Module}

theorem Holds.of_mem_childrenOf {a c : Module} (hc : c ∈ e.childrenOf h state a) :
    e.Holds h m c := by
  rw [childrenOf] at hc
  cases ha : e.dependencies.get? a.name with
  | none =>
    rw [ha] at hc
    exact .inr (.inl (Dependencies.mem_modules_of_discover hc))
  | some children =>
    rw [ha] at hc
    exact .inr (.inr ⟨_, children, ha, hc⟩)

theorem Reaches.holds {x : Module} (hx : e.Reaches h state m x) : e.Holds h m x := by
  cases hx with
  | refl => exact .inl rfl
  | tail _ hc => exact .of_mem_childrenOf hc

theorem OneHandle.closed (hone : e.OneHandle h m) :
    Module.Closed (e.Reaches h state m) (e.childrenOf h state) where
  children _ hx _ hc := .tail hx hc
  handle _ _ hx hy hname := hone _ _ hx.holds hy.holds hname

end Engine

/-! ## Walks that have only looked around -/

/-- What the second walk sees is what the first saw: the state of the host, which modules are due,
and the dependencies of those that have not been visited. -/
structure Walk.Rests (h : Host σ τ) (w v : Walk σ τ) : Prop where
  state : v.state = w.state
  isDue : ∀ m children, v.engine.isDue h.files m children = w.engine.isDue h.files m children
  times : ∀ n, v.engine.times.get? n = w.engine.times.get? n
  children : ∀ m, m.name ∉ v.visited →
    v.engine.childrenOf h v.state m = w.engine.childrenOf h w.state m

namespace Walk.Rests

variable {w v : Walk σ τ}

theorem refl (w : Walk σ τ) : w.Rests h w :=
  ⟨rfl, fun _ _ ↦ rfl, fun _ ↦ rfl, fun _ _ ↦ rfl⟩

theorem entering (hr : w.Rests h v) (ns : List Notice) (m : Module) :
    w.Rests h (v.entering h ns m) where
  state := by rw [entering_state, hr.state]
  isDue n children := by
    have hasks := asks_entering h ns m v
    rw [← hr.isDue, Engine.isDue, Engine.isDue, hasks.isNewer]
    congr 2
    funext c
    exact hasks.isBehind n c
  times n := by rw [entering_times, hr.times]
  children n hn := by
    have hne : n.name ≠ m.name := fun heq ↦ hn (heq ▸ List.mem_cons_self)
    rw [← hr.children n fun hmem ↦ hn (List.mem_cons_of_mem _ hmem), Engine.childrenOf,
      Engine.childrenOf, entering_dependencies_get?, if_neg hne, entering_state, entering_roots]

theorem after {t : Turn σ τ} (hr : w.Rests h t.before) (ht : t.isIdle h.files = true) :
    w.Rests h (t.after h tick) := by
  have hone : Replays h tick t.before [t] (t.after h tick) := .cons (.refl _) (.nil (.refl _))
  have hidle : ∀ s ∈ [t], s.isIdle h.files = true := by simpa using ht
  refine ⟨?_, fun m children ↦ ?_, fun n ↦ ?_, fun m hm ↦ ?_⟩
  · rw [hone.state_of_forall_isIdle hidle, hr.state]
  · rw [hone.isDue_of_forall_isIdle hidle, hr.isDue]
  · rw [hone.times_of_forall_isIdle hidle, hr.times]
  · rw [← hr.children m hm, Engine.childrenOf, Engine.childrenOf, Turn.after_dependencies_get?,
      ht, if_neg (by simp), Turn.after_roots, hone.state_of_forall_isIdle hidle]

end Walk.Rests

namespace Visits

variable {force : Bool} {ms : List Module} {w w' : Walk σ τ} {ts : List (Turn σ τ)}
  {err : Option ReloadError} {P : Module → Prop}

/-- If nothing happens in any turn that comes while the walk has only looked around, then the walk
only looks around. Its turns are those of modules that are reached at the start, with the
dependencies that they have at the start. -/
theorem rests (hv : Visits h tick force ms w ts err w') (hms : ∀ m ∈ ms, P m)
    (hclosed : ∀ m, P m → ∀ c ∈ w.engine.childrenOf h w.state m, P c)
    (hidle : ∀ t ∈ ts, w.Rests h t.before → P t.module →
      t.children = w.engine.childrenOf h w.state t.module → t.isIdle h.files = true) :
    w.Rests h w' ∧ ∀ t ∈ ts, w.Rests h t.before ∧ P t.module ∧
      t.children = w.engine.childrenOf h w.state t.module := by
  refine hv.invariant (I := w.Rests h) (P := P)
    (Q := fun m children ↦ children = w.engine.childrenOf h w.state m) (.refl w) hms
    (fun v ns hr ↦ ⟨hr.state, hr.isDue, hr.times, hr.children⟩) (fun v ns m hr hm hnew ↦ ?_)
    fun t ht hr hm hchildren ↦ hr.after (hidle t ht hr hm hchildren)
  rw [hr.children m hnew]
  exact ⟨hr.entering ns m, rfl, hclosed m hm⟩

/-- Nothing happens if nothing that is reached is forced or due at the start. -/
theorem forall_isIdle (hv : Visits h tick false ms w ts err w') (hms : ∀ m ∈ ms, P m)
    (hclosed : ∀ m, P m → ∀ c ∈ w.engine.childrenOf h w.state m, P c)
    (hdue : ∀ t ∈ ts, P t.module →
      w.engine.isDue h.files t.module (w.engine.childrenOf h w.state t.module) = false) :
    ∀ t ∈ ts, t.isIdle h.files = true := by
  have hforce : ∀ t ∈ ts, t.force = false := by
    intro t ht
    cases hforce : t.force with
    | false => rfl
    | true => exact absurd (hv.of_force ht hforce).1 (by decide)
  have hidle : ∀ t ∈ ts, w.Rests h t.before → P t.module →
      t.children = w.engine.childrenOf h w.state t.module → t.isIdle h.files = true := by
    intro t ht hr hm hchildren
    rw [Turn.isIdle_iff, hr.isDue, hchildren]
    exact ⟨hforce t ht, hdue t ht hm⟩
  have hall := (hv.rests hms hclosed hidle).2
  intro t ht
  exact hidle t ht (hall t ht).1 (hall t ht).2.1 (hall t ht).2.2

theorem err_eq_none (hv : Visits h tick force ms w ts err w')
    (hidle : ∀ t ∈ ts, t.isIdle h.files = true) : err = none := by
  cases err with
  | none => rfl
  | some e =>
    obtain ⟨t, ht, herror⟩ := hv.exists_of_error
    rw [(Turn.outcome_eq_ok_false_iff h tick t).mpr (hidle t ht)] at herror
    simp at herror

theorem err_eq_none_of_attempt (hv : Visits h tick force ms w ts err w')
    (hattempt : ∀ t ∈ ts, ∀ state, (h.attempt state t.module).1 = none) : err = none := by
  cases err with
  | none => rfl
  | some e =>
    obtain ⟨t, ht, herror⟩ := hv.exists_of_error
    obtain ⟨cause, hcause⟩ := Turn.exists_cause_of_outcome herror
    rw [hattempt t ht] at hcause
    simp at hcause

/-- Visits that begin with nothing visited come to every module that is reached along the
dependencies they find, if these are as `K` says all along. -/
theorem exists_turn {K : Module → List Module} {m x : Module} (hP : Module.Closed P K) (hm : P m)
    (hv : Visits h tick force [m] w ts none w') (hstart : w.visited = [])
    (hts : ∀ t ∈ ts, P t.module ∧ t.children = K t.module) (hx : m.ReachesBy K x) :
    ∃ t ∈ ts, t.module = x := by
  have hturn {a : Module} (ha : P a) (hvisited : a.name ∈ w'.visited) :
      ∃ t ∈ ts, t.module = a := by
    obtain ⟨t, ht, hname⟩ := hv.exists_turn_of_visited hstart hvisited
    exact ⟨t, ht, hP.handle _ _ (hts t ht).1 ha hname⟩
  induction hx with
  | refl => exact hturn hm (hv.mem_visited_of_mem List.mem_cons_self)
  | @tail b c hb hc ih =>
    obtain ⟨t, ht, rfl⟩ := ih
    have hmem : c ∈ t.children := (hts t ht).2 ▸ hc
    obtain ⟨hvisited, hsub⟩ := hv.children_visited ht hmem
    exact hturn (hP.children _ (hts t ht).1 c hc) (hsub hvisited)

end Visits

/-! ## When a call does nothing -/

namespace Visits

variable {e : Engine} {state : σ} {force : Bool} {ms : List Module} {w' : Walk σ τ}
  {ts : List (Turn σ τ)} {err : Option ReloadError}

theorem attempts_eq_nil_iff
    (hv : Visits h tick force ms (Walk.opening (.start e state)) ts err w') :
    Event.attempts w'.events = [] ↔ ∀ t ∈ ts, t.isIdle h.files = true := by
  rw [hv.attempts_eq]
  simp

theorem answer_of_forall_isIdle {w₀ : Walk σ τ}
    (hv : Visits h tick force ms w₀ ts err w')
    (hidle : ∀ t ∈ ts, t.isIdle h.files = true) (n : String) :
    answer err (Turn.anyReload h tick ts n) = .ok false := by
  obtain rfl := hv.err_eq_none hidle
  rw [Turn.anyReload_eq_false.mpr fun t ht _ ↦ Replays.isReload_of_isIdle (hidle t ht)]
  rfl

end Visits

namespace Run

variable {e : Engine} {state : σ} {m : Module}

/-- **When a call does nothing, by what it looks at.** -/
theorem autoreload_eq_ok_false_iff (hclock : e.Clocked) :
    (((start e state : Run σ τ).autoreload h m false).1 = .ok false ∧
      Event.attempts ((start e state : Run σ τ).autoreload h m false).2.events = []) ↔
    ∀ x ∈ Event.looks ((start e state : Run σ τ).autoreload h m false).2.events,
      e.isDue h.files x (e.childrenOf h state x) = false := by
  obtain ⟨ts, err, w', hv, heq⟩ := exists_visits (h := h) (r := start e state) hclock m false
  rw [heq, hv.attempts_eq_nil_iff, hv.looks_eq, List.forall_mem_map]
  constructor
  · rintro ⟨-, hidle⟩ t ht
    have hchildren := ((hv.rests (P := fun _ ↦ True) (fun _ _ ↦ trivial) (fun _ _ _ _ ↦ trivial)
      fun t ht _ _ _ ↦ hidle t ht).2 t ht).2.2
    have hdue := (hv.replays.forall_isIdle_iff.mp hidle t ht).2
    rw [hchildren] at hdue
    exact hdue
  · intro hdue
    have hidle := hv.forall_isIdle (P := fun _ ↦ True) (fun _ _ ↦ trivial)
      (fun _ _ _ _ ↦ trivial) fun t ht _ ↦ hdue t ht
    exact ⟨hv.answer_of_forall_isIdle hidle m.name, hidle⟩

/-- **When a call does nothing.** The host is asked for no reinitialization exactly if no module
that is reached has changed, and none of them is behind one of its dependencies. The call then
answers that it reloaded nothing, and no time has changed. -/
theorem attempts_autoreload_eq_nil_iff (hclock : e.Clocked) (hone : e.OneHandle h m) :
    (Event.attempts ((start e state : Run σ τ).autoreload h m false).2.events = [] ↔
      (∀ x, e.Reaches h state m x → e.isNewer h.files x = false) ∧
        ¬∃ x c, e.Reaches h state m x ∧ c ∈ e.childrenOf h state x ∧ e.isBehind x c = true) ∧
    (Event.attempts ((start e state : Run σ τ).autoreload h m false).2.events = [] →
      ((start e state : Run σ τ).autoreload h m false).1 = .ok false ∧
        ∀ n, ((start e state : Run σ τ).autoreload h m false).2.engine.times.get? n =
          e.times.get? n) := by
  obtain ⟨ts, err, w', hv, heq⟩ := exists_visits (h := h) (r := start e state) hclock m false
  have hm : e.Reaches h state m m := .refl
  have hms : ∀ a ∈ [m], e.Reaches h state m a := by
    rw [List.forall_mem_singleton]
    exact hm
  have hclosed : Module.Closed (e.Reaches h state m) (e.childrenOf h state) := hone.closed
  rw [heq, hv.attempts_eq_nil_iff]
  refine ⟨⟨?_, ?_⟩, ?_⟩
  · intro hidle
    obtain rfl := hv.err_eq_none hidle
    have hts := (hv.rests hms hclosed.children fun t ht _ _ _ ↦ hidle t ht).2
    have hstart := hv.replays.forall_isIdle_iff.mp hidle
    have hdue : ∀ x, e.Reaches h state m x →
        e.isDue h.files x (e.childrenOf h state x) = false := by
      intro x hx
      obtain ⟨t, ht, rfl⟩ := hv.exists_turn hclosed hm rfl (fun t ht ↦ (hts t ht).2) hx
      have hdue := (hstart t ht).2
      rw [(hts t ht).2.2] at hdue
      exact hdue
    refine ⟨fun x hx ↦ (Engine.isDue_eq_false.mp (hdue x hx)).1, ?_⟩
    rintro ⟨x, c, hx, hc, hbehind⟩
    rw [(Engine.isDue_eq_false.mp (hdue x hx)).2 c hc] at hbehind
    exact absurd hbehind (by decide)
  · rintro ⟨hnewer, hbehind⟩
    refine hv.forall_isIdle hms hclosed.children fun t _ hx ↦ ?_
    refine Engine.isDue_eq_false.mpr ⟨hnewer _ hx, fun c hc ↦ ?_⟩
    rw [← Bool.not_eq_true]
    intro hc'
    exact hbehind ⟨_, c, hx, hc, hc'⟩
  · intro hidle
    exact ⟨hv.answer_of_forall_isIdle hidle m.name, hv.replays.times_of_forall_isIdle hidle⟩

end Run

/-! ## Two modules that depend on each other -/

namespace Module

/-- One of two modules without sources. -/
def left : Module := ⟨0, "a", none, none⟩

def right : Module := ⟨1, "b", none, none⟩

end Module

/-- A host of two modules each of which declares the other. Nothing is kept around a reload, and
none fails. -/
def Host.pair : Host Unit Unit where
  files := .empty
  modules := [.left, .right]
  declares _ m := if m = .left then ["b"] else ["a"]
  save _ _ := (none, ())
  reinitialize _ _ := (none, ())
  restore _ _ _ := ()

/-- An engine that has reloaded the first of the two modules. -/
def Engine.leftReloaded : Engine :=
  ⟨.empty, .empty, .empty, ⟨⟨[("a", 1)], by decide⟩, 1⟩⟩

namespace Run

/-- The call for the first module does something, since the second one is behind it. -/
theorem attempts_pair_ne_nil :
    Engine.leftReloaded.Clocked ∧ Engine.leftReloaded.OneHandle .pair .left ∧
      Event.attempts ((start .leftReloaded ()).autoreload .pair .left false).2.events ≠ [] := by
  have hclock : Engine.leftReloaded.Clocked := by
    intro n u hu
    have hentry : [("a", 1)].lookup n = some u := hu
    rw [List.lookup_cons] at hentry
    split at hentry <;> simp_all [Engine.leftReloaded]
  have hone : Engine.leftReloaded.OneHandle .pair .left := by
    have hheld : ∀ a, Engine.leftReloaded.Holds .pair .left a → a = .left ∨ a = .right := by
      rintro a (rfl | ha | ⟨n, children, hn, -⟩)
      · exact .inl rfl
      · simpa [Host.pair] using ha
      · simp [Engine.leftReloaded] at hn
    intro a b ha hb hname
    rcases hheld a ha with rfl | rfl <;> rcases hheld b hb with rfl | rfl
    · rfl
    · exact absurd hname (by decide)
    · exact absurd hname (by decide)
    · rfl
  refine ⟨hclock, hone, ?_⟩
  intro hnone
  have hcalm := (@attempts_autoreload_eq_nil_iff Unit Unit .pair _ () .left hclock hone).1.mp hnone
  exact hcalm.2 ⟨.right, .left, .single (by decide), by decide, by decide⟩

end Run

end ModuleReload
