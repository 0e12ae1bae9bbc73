import ModuleReload.Proofs.Engine.Marks
import ModuleReload.Proofs.Watch.Quiescence

/-!
# What a session reports

A cycle does not keep a list of what it reloads. It reads the clock when it begins, and in the end
asks the engine what bears a later time. Each of its calls changes times as one request to the
engine does, so the row of its calls does (`Session.Calls.follows`), and what bears a later time is
what one of the calls has reloaded. In the tree these are the modules whose generation has grown
(`Session.Calls.generation_lt_iff`), so the outcome names exactly those.
-/

namespace ModuleReload.Session

variable {fs : FileSystem} {s s' : Session} {m x : Module}

theorem follows_autoreload (hs : s.Sound) (fs : FileSystem) (m : Module) :
    s.engine.times.Follows ((s.reloads fs m).map Module.name) (s.autoreload fs m).2.engine.times :=
  Engine.Request.follows hs.engine.clocked (s.tree.host fs) s.tree (.autoreload m false)

/-- The modules that are reloaded in a row of calls, in this order. -/
def reloadsOf (fs : FileSystem) (cs : List (Session × Module)) : List Module :=
  cs.flatMap fun c ↦ c.1.reloads fs c.2

namespace Calls

variable {cs : List (Session × Module)}

theorem follows (hc : Calls fs s cs s') (hs : s.Sound) :
    s.engine.times.Follows ((reloadsOf fs cs).map Module.name) s'.engine.times := by
  induction hc with
  | done => exact .of_eq rfl
  | log ns _ ih => exact ih (hs.log ns)
  | @call s s' m b cs hm _ _ ih =>
    rw [reloadsOf, List.flatMap_cons, List.map_append]
    exact (follows_autoreload hs fs m).trans (ih (hs.autoreload hm))

theorem generation_eq (hc : Calls fs s cs s') (hs : s.Sound) (hx : x ∈ s.tree.modules)
    (hnot : x ∉ reloadsOf fs cs) : s'.generation x = s.generation x := by
  induction hc with
  | done => rfl
  | log ns _ ih => exact ih (hs.log ns) hx hnot
  | @call s s' m b cs hm hok _ ih =>
    rw [reloadsOf, List.flatMap_cons, List.mem_append, not_or] at hnot
    have hx' : x ∈ (s.autoreload fs m).2.tree.modules := (sameModules_autoreload hs fs m).modules ▸
      hx
    rw [ih (hs.autoreload hm) hx' hnot.2, generation_autoreload hs hm hok hx, if_neg hnot.1]

/-- **Generations tell what a row of calls reloads.** -/
theorem generation_lt_iff (hc : Calls fs s cs s') (hs : s.Sound) :
    x ∈ s.tree.modules ∧ s.generation x < s'.generation x ↔ x ∈ reloadsOf fs cs := by
  constructor
  · rintro ⟨hx, hlt⟩
    by_contra hnot
    exact absurd (hc.generation_eq hs hx hnot) (Nat.ne_of_gt hlt)
  · intro hx
    obtain ⟨c, hmem, hx⟩ := List.mem_flatMap.mp hx
    exact hc.exists_generation_lt hs hmem hx

end Calls

/-- The outcome of a cycle that does not fail names the modules whose generation has grown in it. -/
theorem Sound.tells_grown (hs : s.Sound) (hok : ∀ err, (s.cycle fs).1 ≠ .failed err) :
    (s.cycle fs).1.Tells
      fun x ↦ x ∈ s.tree.modules ∧ s.generation x < (s.cycle fs).2.generation x := by
  obtain ⟨hnone, hcalls⟩ := calls_of_cycle hok
  refine tells_of_after hnone fun n ↦ ?_
  rw [← cycle_snd]
  have hmark := (hcalls.follows hs).mem_after_iff hs.engine.clocked (hs.cycle fs).engine.sound
    (n := n)
  rw [Engine.clock?, hmark, List.mem_map]
  exact exists_congr fun x ↦ and_congr_left fun _ ↦ (hcalls.generation_lt_iff hs).symm

/-- **The clock reports what was reloaded.** However an engine came about, each of its modules has a
time that is not later than its clock, and no operation turns the clock or a time back, unless it
takes everything out of the engine. If the clock is read and steps follow, whether or not they fail,
the engine then lists exactly what has been reloaded since, in strictly ascending order. And a cycle
of a session, if it does not fail, names exactly the modules whose generation has grown in it. -/
theorem Reached.reports_reloads {e : Engine} (hs : s.Reached) (he : e.Reached) (fs : FileSystem) :
    (∀ n u, e.times.get? n = some u → ∃ t, e.clock? = some t ∧ u ≤ t) ∧
    (∀ e', Engine.Operation e e' → e.times.Rises e'.times) ∧
    (∀ names e', Engine.Steps e names e' → (e'.times.after e.clock?).Pairwise (· < ·) ∧
      ∀ n, n ∈ e'.times.after e.clock? ↔ n ∈ names) ∧
    ((∀ err, (s.cycle fs).1 ≠ .failed err) → (s.cycle fs).1.Tells
      fun x ↦ x ∈ s.tree.modules ∧ s.generation x < (s.cycle fs).2.generation x) :=
  ⟨fun _ _ hu ↦ he.sound.exists_now hu, fun _ ho ↦ ho.rises he.clocked,
    fun _ _ hsteps ↦ hsteps.after_mark he, hs.sound.tells_grown⟩

/-- The lower module of the tower has been reloaded when the clock is read. Then the reload of the
upper one fails, and succeeds at the second try. And the cycle of a session in which a source has
been touched names its module and the one that imports it. -/
theorem tower_reports :
    let e := (Engine.Request.run (.tower []) (.start (.new .empty) ()) (.reload .base)).engine
    let first := Engine.Request.run (.tower [.top]) (.start e ()) (.autoreload .top false)
    let second := Engine.Request.run (.tower []) (.start first.engine ()) (.autoreload .top false)
    e.clock? = some 1 ∧ Event.failures first.events = [.top] ∧
      (∀ n, n ∈ second.engine.times.after e.clock? ↔ n = "top") ∧
      ∃ names, (waiting.cycle (.pair 2)).1 = .reloaded names ∧ names.Pairwise (· < ·) ∧
        ∀ n, n ∈ names ↔ n = "a" ∨ n = "b" := by
  intro e first second
  have he : e.Reached := .reload _ _ _ (.new _)
  have hsteps : Engine.Steps e (([] ++ first.reloaded) ++ second.reloaded) second.engine :=
    .step (.step (.done e) (.request ..)) (.request ..)
  have hnames : ([] ++ first.reloaded) ++ second.reloaded = ["top"] := by decide
  obtain ⟨-, -, hafter, htells⟩ := Reached.waiting.reports_reloads he (.pair 2)
  have hafter := (hafter _ _ hsteps).2
  rw [hnames] at hafter
  refine ⟨by decide, by decide, fun n ↦ (hafter n).trans List.mem_singleton, ?_⟩
  have hbuild := (Reached.waiting.sound.reloads_cycle steady_waiting).1
  have hok : ∀ err, (waiting.cycle (.pair 2)).1 ≠ .failed err := by
    intro err hfailed
    rwa [hfailed] at hbuild
  have htells := htells hok
  have hgrown (x : Module) :
      x ∈ waiting.tree.modules ∧ waiting.generation x < (waiting.cycle (.pair 2)).2.generation x ↔
        x = .upper ∨ x = .lower := by
    have hmodules : waiting.tree.modules = [.upper, .lower] := by decide +kernel
    rw [cycle_waiting, hmodules, List.mem_pair]
    refine and_iff_left_of_imp ?_
    rintro (rfl | rfl) <;> decide +kernel
  cases houtcome : (waiting.cycle (.pair 2)).1 with
  | failed err => exact absurd houtcome (hok err)
  | unchanged =>
    rw [houtcome] at htells
    exact absurd ((hgrown .upper).mpr (.inl rfl)) (htells .upper)
  | reloaded names =>
    rw [houtcome] at htells
    obtain ⟨-, hsorted, hmem⟩ := htells
    refine ⟨names, rfl, hsorted, fun n ↦ ?_⟩
    simp only [hmem, hgrown, or_and_right, exists_or, exists_eq_left, Module.upper, Module.lower,
      eq_comm]

end ModuleReload.Session
