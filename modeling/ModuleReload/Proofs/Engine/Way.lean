import ModuleReload.Proofs.Engine.Account

/-!
# The way to a failure

A call that fails stops in the middle of its walk. Some modules have had their turn by then; others
have been come to and still wait for their dependencies. Those that wait lie on one way (`Run.Way`),
from the module of the call down to the one that failed: each of them is a dependency of the one
before it, and is where the walk was when the error came up (`Visits.exists_way`). In the account
they are the modules that were asked for and not looked at (`Visits.waits_iff`).

What was asked for is told by the account, and so is what the call remembers of it: the list of each
module that was asked for, unless its reload was attempted (`Visits.dependencies_of_asked`).
-/

namespace ModuleReload

variable {σ τ : Type} {h : Host σ τ} {tick : Tick}

/-- A module waits if its dependencies were asked for, and its source was not looked at. -/
def Event.Waits (es : List (Event τ)) (x : Module) : Prop :=
  (∃ children, .asked x children ∈ es) ∧ .checked x ∉ es

namespace Run

/-- The second module is among the dependencies that a run has found for the first one and
remembers. -/
def LeadsTo (r : Run σ τ) (a b : Module) : Prop :=
  ∃ children, .asked a children ∈ r.events ∧ r.engine.dependencies.get? a.name = some children ∧
    b ∈ children

/-- A way down from the first module to the second: the modules on it, without the second. -/
inductive Way (r : Run σ τ) : Module → List Module → Module → Prop
  | here (x : Module) : Way r x [] x
  | down {a b x : Module} {way : List Module} (hab : r.LeadsTo a b) (hway : Way r b way x) :
      Way r a (a :: way) x

namespace Way

variable {r : Run σ τ} {m x y : Module} {way : List Module}

theorem exists_leadsTo (hway : r.Way m way x) (hy : y ∈ way) : ∃ b, r.LeadsTo y b := by
  induction hway with
  | here => simp at hy
  | down hab _ ih =>
    rcases List.mem_cons.mp hy with rfl | hy
    · exact ⟨_, hab⟩
    · exact ih hy

theorem reaches_end (hway : r.Way m way x) : Relation.ReflTransGen r.LeadsTo m x := by
  induction hway with
  | here => exact .refl
  | down hab _ ih => exact .head hab ih

theorem reaches_of_mem (hway : r.Way m way x) (hy : y ∈ way) :
    Relation.ReflTransGen r.LeadsTo m y := by
  induction hway with
  | here => simp at hy
  | down hab _ ih =>
    rcases List.mem_cons.mp hy with rfl | hy
    · exact .refl
    · exact .head hab (ih hy)

end Way

end Run

namespace Visits

variable {e : Engine} {state : σ} {force : Bool} {ms : List Module} {m x y : Module}
  {w w' : Walk σ τ}
  {ts : List (Turn σ τ)} {err : Option ReloadError} {error : ReloadError} {way : List Module}

/-- Where visits stand when an error has ended them: at a module whose turn has failed, with a way
of modules that were not visited before, and have no turn. Whatever else has been visited has had
its turn. -/
structure StandsAt (h : Host σ τ) (tick : Tick) (w w' : Walk σ τ) (ts : List (Turn σ τ))
    (way : List Module) (x : Module) : Prop where
  failed : (ts.filter (Turn.isFailure h tick)).map Turn.module = [x]
  fresh : ∀ y ∈ way, y.name ∉ w.visited
  turnless : ∀ y ∈ way, ∀ t ∈ ts, t.module.name ≠ y.name
  visited : ∀ n ∈ w'.visited, n ∈ w.visited ∨ (∃ y ∈ way, y.name = n) ∨ ∃ t ∈ ts, t.module.name = n

theorem filter_isFailure (hv : Visits h tick force ms w ts none w') :
    ts.filter (Turn.isFailure h tick) = [] :=
  List.filter_eq_nil_iff.mpr fun _ ht ↦ by simp [hv.isFailure_eq_false ht]

/-- When the dependencies of a module have been seen to, the module and those that had their turns
below it have been visited, and nothing else than what was visited before. -/
theorem mem_visited_below {ns : List Notice}
    (hbelow : Visits h tick false ms (w.entering h ns m) ts none w') {n : String} :
    n ∈ w'.visited ↔ n ∈ w.visited ∨ m.name = n ∨ ∃ t ∈ ts, t.module.name = n := by
  rw [hbelow.mem_visited_iff, Walk.entering_visited, List.mem_cons, or_assoc, or_left_comm, eq_comm]

namespace StandsAt

variable {w₁ : Walk σ τ} {us : List (Turn σ τ)} {t : Turn σ τ} {children : List Module}
  {ns : List Notice}

/-- An error below a module leaves the module waiting. -/
theorem down (hnew : m.name ∉ w.visited)
    (hbelow : Visits h tick false children (w.entering h ns m) ts err w')
    (hstands : StandsAt h tick (w.entering h ns m) w' ts way x) :
    StandsAt h tick w w' ts (m :: way) x where
  failed := hstands.failed
  fresh := by
    rw [List.forall_mem_cons]
    exact ⟨hnew, fun y hy hold ↦ hstands.fresh y hy (List.mem_cons_of_mem _ hold)⟩
  turnless := by
    rw [List.forall_mem_cons]
    refine ⟨fun t ht hname ↦ (hbelow.mem_visited ht).1 ?_, hstands.turnless⟩
    rw [hname]
    exact List.mem_cons_self
  visited n hn := by
    rcases hstands.visited n hn with hn | ⟨y, hy, rfl⟩ | hturn
    · rcases List.mem_cons.mp hn with rfl | hn
      · exact .inr (.inl ⟨m, List.mem_cons_self, rfl⟩)
      · exact .inl hn
    · exact .inr (.inl ⟨y, List.mem_cons_of_mem _ hy, rfl⟩)
    · exact .inr (.inr hturn)

theorem here (hbelow : Visits h tick false children (w.entering h ns t.module) ts none t.before)
    (hfail : (t.outcome h tick).1 = .error error) :
    StandsAt h tick w (t.after h tick) (ts ++ [t]) [] t.module where
  failed := by
    have hfailed := Turn.isFailure_of_error hfail
    simp [hbelow.filter_isFailure, hfailed]
  fresh := by simp
  turnless := by simp
  visited n hn := by
    rw [Turn.after_visited, hbelow.mem_visited_below] at hn
    rcases hn with hold | rfl | ⟨s, hs, rfl⟩
    · exact .inl hold
    · exact .inr (.inr ⟨t, by simp, rfl⟩)
    · exact .inr (.inr ⟨s, List.mem_append_left _ hs, rfl⟩)

/-- By the time that later modules are visited, all before them have had their turns. -/
theorem later {b : Bool}
    (hbelow : Visits h tick false children (w.entering h ns t.module) ts none t.before)
    (hok : (t.outcome h tick).1 = .ok b) (hstands : StandsAt h tick (t.after h tick) w' us way x) :
    StandsAt h tick w w' (ts ++ t :: us) way x where
  failed := by
    have hcame := Turn.isFailure_of_ok hok
    simp [hbelow.filter_isFailure, hcame, hstands.failed]
  fresh y hy hold := hstands.fresh y hy (hbelow.visited_subset (List.mem_cons_of_mem _ hold))
  turnless y hy s hs := by
    rcases List.mem_append.mp hs with hs | hs
    · exact fun hname ↦ hstands.fresh y hy (hname ▸ (hbelow.mem_visited hs).2)
    · rcases List.mem_cons.mp hs with rfl | hs
      · exact fun hname ↦ hstands.fresh y hy (hname ▸ hbelow.visited_subset List.mem_cons_self)
      · exact hstands.turnless y hy s hs
  visited n hn := by
    rcases hstands.visited n hn with hn | hwaiting | ⟨s, hs, rfl⟩
    · rw [Turn.after_visited, hbelow.mem_visited_below] at hn
      rcases hn with hold | rfl | ⟨s, hs, rfl⟩
      · exact .inl hold
      · exact .inr (.inr ⟨t, by simp, rfl⟩)
      · exact .inr (.inr ⟨s, List.mem_append_left _ hs, rfl⟩)
    · exact .inr (.inl hwaiting)
    · exact .inr (.inr ⟨s, by simp [hs], rfl⟩)

end StandsAt

/-- What has been found for a module is told and remembered as long as the module waits. -/
theorem leadsTo_of_below {ns : List Notice} {c : Module} (hc : c ∈ w.engine.childrenOf h w.state m)
    (hbelow : Visits h tick false (w.engine.childrenOf h w.state m) (w.entering h ns m) ts err w') :
    w'.LeadsTo m c := by
  refine ⟨_, ?_, ?_, hc⟩
  · obtain ⟨es, hes⟩ := hbelow.replays.exists_events
    rw [← Event.mem_findings, hes, Event.findings_append, Walk.findings_entering]
    simp
  · rw [hbelow.dependencies_of_visited List.mem_cons_self, Walk.entering_dependencies_get?,
      if_pos rfl]

/-- **The way to a failure.** It begins at one of the modules to be visited, and what has been
visited and has had no turn lies on it. -/
theorem exists_way (hv : Visits h tick force ms w ts (some error) w') :
    ∃ m ∈ ms, ∃ way x, w'.Way m way x ∧ x.name = error.module ∧ StandsAt h tick w w' ts way x := by
  generalize hsome : some error = o at hv
  induction hv with
  | done => simp at hsome
  | skip _ _ ih =>
    obtain ⟨m, hm, hrest⟩ := ih hsome
    exact ⟨m, List.mem_cons_of_mem _ hm, hrest⟩
  | @broken _ m _ _ _ _ _ ns hnew hbelow ih =>
    obtain ⟨c, hc, way, x, hway, hname, hstands⟩ := ih hsome
    exact ⟨m, List.mem_cons_self, m :: way, x, .down (leadsTo_of_below hc hbelow) hway, hname,
      hstands.down hnew hbelow⟩
  | @fail _ m _ _ _ _ t _ ns _ hbelow ht hfail _ =>
    obtain rfl := Option.some.inj hsome
    subst ht
    exact ⟨m, List.mem_cons_self, [], m, .here m, (Turn.module_of_outcome hfail).symm,
      .here hbelow hfail⟩
  | turn ns _ hbelow ht hok _ _ ih =>
    obtain ⟨a, ha, way, x, hway, hname, hstands⟩ := ih hsome
    subst ht
    exact ⟨a, List.mem_cons_of_mem _ ha, way, x, hway, hname, hstands.later hbelow hok⟩

/-! ## Waiting, by the account -/

/-- The modules on the way to a failure are those that wait. -/
theorem waits_iff (hv : Visits h tick force ms (Walk.opening (.start e state)) ts err w')
    (hway : w'.Way m way x)
    (hstands : StandsAt h tick (Walk.opening (.start e state)) w' ts way x) :
    Event.Waits w'.events y ↔ y ∈ way := by
  rw [Event.Waits, hv.checked_iff]
  constructor
  · rintro ⟨⟨children, hasked⟩, hturnless⟩
    have hvisited := (hv.tells (.opening e state)).visited _ (Event.mem_findings.mpr hasked)
    rcases hstands.visited _ hvisited with hold | ⟨z, hz, hname⟩ | ⟨t, ht, hname⟩
    · exact absurd hold List.not_mem_nil
    · obtain ⟨b, others, hasked', -⟩ := hway.exists_leadsTo hz
      obtain ⟨rfl, -⟩ := hv.eq_of_asked (.opening e state) hasked' hasked hname
      exact hz
    · have hasked' := Event.mem_findings.mp (hv.mem_findings ht)
      exact absurd ⟨t, ht, (hv.eq_of_asked (.opening e state) hasked' hasked hname).1⟩ hturnless
  · intro hy
    obtain ⟨b, children, hasked, -⟩ := hway.exists_leadsTo hy
    refine ⟨⟨children, hasked⟩, ?_⟩
    rintro ⟨t, ht, rfl⟩
    exact hstands.turnless _ hy t ht rfl

/-- **What a call remembers.** The dependencies that it has found for a module, unless it has
attempted to reload the module. -/
theorem dependencies_of_asked
    (hv : Visits h tick force ms (Walk.opening (.start e state)) ts err w')
    {children : List Module} (hasked : .asked x children ∈ w'.events) :
    w'.engine.dependencies.get? x.name =
      if x ∈ Event.attempts w'.events then none else some children := by
  by_cases hturn : ∃ t ∈ ts, t.module = x
  · obtain ⟨t, ht, rfl⟩ := hturn
    have hasked' := Event.mem_findings.mp (hv.mem_findings ht)
    obtain ⟨-, rfl⟩ := hv.eq_of_asked (.opening e state) hasked' hasked rfl
    rw [hv.dependencies_of_mem ht]
    cases hidle : t.isIdle h.files <;> simp [hv.mem_attempts_iff_isIdle ht, hidle]
  · have huntried : x ∉ Event.attempts w'.events := by
      rw [hv.mem_attempts]
      rintro ⟨t, ht, -, hmodule⟩
      exact hturn ⟨t, ht, hmodule⟩
    rw [if_neg huntried]
    -- A module that was asked for and has no turn waits, so the call has failed.
    cases err with
    | none =>
      obtain ⟨t, ht, hmodule, -⟩ := hv.exists_turn_of_asked (.opening e state) rfl hasked
      exact absurd ⟨t, ht, hmodule⟩ hturn
    | some error =>
      obtain ⟨m, -, way, z, hway, -, hstands⟩ := hv.exists_way
      have hwaits : Event.Waits w'.events x := by
        rw [Event.Waits, hv.checked_iff]
        exact ⟨⟨children, hasked⟩, hturn⟩
      obtain ⟨b, others, hasked', hlist, -⟩ :=
        hway.exists_leadsTo ((hv.waits_iff hway hstands).mp hwaits)
      obtain ⟨-, rfl⟩ := hv.eq_of_asked (.opening e state) hasked' hasked rfl
      exact hlist

end Visits

end ModuleReload
