import ModuleReload.Proofs.Engine.Propagation

/-!
# What a call covers

Both calls of the engine come to an end on every graph of dependencies, cycles included, and go over
what is reached from their module without doing anything twice (`Run.covers_calls`). A call that is
not ended early, by a failure or by a change that is found, goes over all of it. Nothing that
belongs to other modules changes.

What is reached is told by the lists of dependencies that the call finds (`Event.Finds`). They are
not known beforehand, since a list may be discovered late in a call, and what a module declares may
depend on reloads that come before. A question finds the lists that there are at its start, and so
does a call in which the reload of one module does not change what another one declares.

All this is said of tours (`Tour.covers`), of which both calls are instances. That all is covered is
the closure of what has been visited: with a module, all dependencies found for it have been visited
by the end.
-/

namespace ModuleReload

variable {σ τ : Type} {h : Host σ τ}

/-- The names that were asked for, in order. -/
def Event.askedNames (es : List (Event τ)) : List String :=
  (findings es).map fun p ↦ p.1.name

/-- The names of the modules whose sources were looked at, in order. -/
def Event.lookedNames (es : List (Event τ)) : List String :=
  (looks es).map Module.name

/-- That a call which began with an engine, for a module `m`, has gone over what `m` reaches along
the lists `K`: over nothing else and over nothing twice, over all of it if the call was not ended
early, and without a change to anything that belongs to other modules. A baseline may belong to
several modules; it is changed only if a module at hand with that source is reached. -/
structure Run.Covers (h : Host σ τ) (e : Engine) (m : Module) (K : Module → List Module)
    (complete : Prop) (r : Run σ τ) : Prop where
  once : ∀ n, (Event.askedNames r.events).count n ≤ 1 ∧ (Event.lookedNames r.events).count n ≤ 1
  reached : ∀ n, n ∈ Event.askedNames r.events ∨ n ∈ Event.lookedNames r.events →
    ∃ x, m.ReachesBy K x ∧ x.name = n
  all : complete → ∀ x, m.ReachesBy K x →
    (Event.askedNames r.events).count x.name = 1 ∧ (Event.lookedNames r.events).count x.name = 1
  entries : ∀ n, (∀ x, m.ReachesBy K x → x.name ≠ n) →
    r.engine.dependencies.get? n = e.dependencies.get? n ∧ r.engine.times.get? n = e.times.get? n
  baselines : ∀ y, ¬m.ReachesBy K y → (∀ x, e.Holds h m x → x.SameSource h.files y → x = y) →
    r.engine.baseline? h.files y = e.baseline? h.files y

/-! ## What a tour covers -/

namespace Tour

variable {T : Module → Run σ τ → Bool → Run σ τ → Prop} {ms xs : List Module} {w w' : Walk σ τ}
  {ended : Bool} {K : Module → List Module} {m x y : Module} {n : String}

/-- A tour meets only handles that were at hand when it began, and brings no new ones. -/
theorem holds_all (hT : IsTurn h T) (ht : Tour h T ms w xs ended w')
    (hms : ∀ a ∈ ms, w.engine.Holds h m a) (hw : Event.findings w.events = []) :
    (∀ a, w'.engine.Holds h m a → w.engine.Holds h m a) ∧
      ∀ p ∈ Event.findings w'.events, w.engine.Holds h m p.1 ∧ ∀ c ∈ p.2, w.engine.Holds h m c := by
  refine (ht.invariant (P := w.engine.Holds h m)
    (I := fun v ↦ (∀ a, v.engine.Holds h m a → w.engine.Holds h m a) ∧
      ∀ q ∈ Event.findings v.events, w.engine.Holds h m q.1 ∧ ∀ c ∈ q.2, w.engine.Holds h m c)
    ⟨fun _ ha ↦ ha, by simp [hw]⟩ hms (fun v ns hI ↦ ⟨hI.1, ?_⟩) (fun v ns a hI ha _ ↦ ?_)
    fun v a b r hI _ _ hturn ↦ ⟨fun a ha ↦ hI.1 a (.of_turn hT hturn ha), ?_⟩).1
  · rw [Walk.findings_noted]
    exact hI.2
  · have hchildren : ∀ c ∈ v.engine.childrenOf h v.state a, w.engine.Holds h m c :=
      fun c hc ↦ hI.1 c (.of_mem_childrenOf hc)
    refine ⟨⟨fun a ha ↦ hI.1 a ha.of_entering, ?_⟩, hchildren⟩
    rw [Walk.findings_entering, List.forall_mem_append, List.forall_mem_singleton]
    exact ⟨hI.2, ha, hchildren⟩
  · rw [Walk.put, hT.findings hturn]
    exact hI.2

/-- All that is asked for on a tour which begins with nothing visited is reached. -/
theorem reached_of_finding (hT : IsTurn h T) (ht : Tour h T [m] w xs ended w')
    (hw : Event.findings w.events = []) (hK : Event.Finds K w'.events) {p : Module × List Module}
    (hp : p ∈ Event.findings w'.events) : m.ReachesBy K p.1 := by
  rcases ht.reached hT hK hp with hold | ⟨a, ha, hpath⟩
  · simp [hw] at hold
  · rwa [List.mem_singleton.mp ha] at hpath

/-- **What is reached has its turn**, on a tour that is not ended early. -/
theorem mem_of_reached (hT : IsTurn h T) (hone : w.engine.OneHandle h m)
    (ht : Tour h T [m] w xs false w') (hw : Event.findings w.events = [])
    (hstart : w.visited = []) (hK : Event.Finds K w'.events) (hx : m.ReachesBy K x) : x ∈ xs := by
  have hheld {p : Module × List Module} (hp : p ∈ Event.findings w'.events) :
      w.engine.Holds h m p.1 ∧ ∀ c ∈ p.2, w.engine.Holds h m c :=
    (ht.holds_all hT Engine.Holds.forall_mem_singleton hw).2 p hp
  -- With one handle of each name, what has been visited by its name has had its turn itself.
  have hturn {a : Module} (ha : w.engine.Holds h m a) (hvisited : a.name ∈ w'.visited) :
      a ∈ xs := by
    rcases ht.mem_visited_iff.mp hvisited with hold | ⟨y, hy, hname⟩
    · rw [hstart] at hold
      exact absurd hold List.not_mem_nil
    · obtain ⟨children, hfound, -⟩ := ht.exists_children hT hy
      exact hone _ _ (hheld hfound).1 ha hname ▸ hy
  induction hx with
  | refl => exact hturn (.inl rfl) (ht.mem_visited_of_mem List.mem_cons_self)
  | @tail b c _ hc ih =>
    obtain ⟨children, hfound, hvisited⟩ := ht.exists_children hT ih
    obtain rfl : children = K b := hK b children (Event.mem_findings.mp hfound)
    exact hturn ((hheld hfound).2 c hc) (hvisited c hc)

/-- **A tour covers what is reached from its module.** -/
theorem covers (hT : IsTurn h T) (hone : w.engine.OneHandle h m) (ht : Tour h T [m] w xs ended w')
    (hw : w.events = []) (hstart : w.visited = []) (hK : Event.Finds K w'.events) :
    w'.toRun.Covers h w.engine m K (ended = false) := by
  have hfindings : Event.findings w.events = [] := by rw [hw]; rfl
  have hlooks : Event.looks w'.events = xs := by rw [ht.looks_eq hT, hw]; rfl
  have htells : w'.Tells := ht.tells hT ⟨by simp [hfindings], by simp [hfindings]⟩
  have hreached {p : Module × List Module} (hp : p ∈ Event.findings w'.events) :
      m.ReachesBy K p.1 :=
    ht.reached_of_finding hT hfindings hK hp
  have hasked : (Event.askedNames w'.events).Nodup := htells.nodup
  have hlooked : (Event.lookedNames w'.events).Nodup := by
    rw [Event.lookedNames, hlooks]
    exact ht.nodup
  refine ⟨fun n ↦
    ⟨List.nodup_iff_count_le_one.mp hasked n, List.nodup_iff_count_le_one.mp hlooked n⟩,
    ?_, ?_, ?_, ?_⟩
  · rintro n (hn | hn)
    · obtain ⟨p, hp, rfl⟩ := List.mem_map.mp hn
      exact ⟨p.1, hreached hp, rfl⟩
    · rw [Event.lookedNames, hlooks] at hn
      obtain ⟨x, hx, rfl⟩ := List.mem_map.mp hn
      obtain ⟨children, hfound, -⟩ := ht.exists_children hT hx
      exact ⟨x, hreached hfound, rfl⟩
  · rintro rfl x hx
    have hmem : x ∈ xs := ht.mem_of_reached hT hone hfindings hstart hK hx
    obtain ⟨children, hfound, -⟩ := ht.exists_children hT hmem
    refine ⟨List.count_eq_one_of_mem hasked (List.mem_map_of_mem hfound), ?_⟩
    refine List.count_eq_one_of_mem hlooked ?_
    rw [Event.lookedNames, hlooks]
    exact List.mem_map_of_mem hmem
  · intro n hn
    have hclear : ∀ p ∈ Event.findings w'.events, ¬p.1.name = n := fun p hp ↦ hn p.1 (hreached hp)
    constructor
    · refine ht.unchanged (fun e ↦ e.dependencies.get? n) (·.name = n) hT (fun v ns m hne ↦ ?_)
        (fun m r b r' hturn hne ↦ hT.dependencies hturn (Ne.symm hne)) hclear
      rw [Walk.entering_dependencies_get?, if_neg (Ne.symm hne)]
    · refine ht.unchanged (fun e ↦ e.times.get? n) (·.name = n) hT (fun v ns m _ ↦ ?_)
        (fun m r b r' hturn hne ↦ hT.times hturn (Ne.symm hne)) hclear
      rw [Walk.entering_times]
  · intro y hy hsource
    refine ht.unchanged (fun e ↦ e.baseline? h.files y) (·.SameSource h.files y) hT
      (fun v ns m _ ↦ ?_)
      (fun m r b r' hturn hother ↦ hT.baseline hturn hother) fun p hp hsame ↦ ?_
    · exact (Walk.asks_entering h ns m v).baseline? h.files y
    · have hheld := ((ht.holds_all hT Engine.Holds.forall_mem_singleton hfindings).2 p hp).1
      exact hy (hsource _ hheld hsame ▸ hreached hp)

end Tour

/-! ## The calls -/

namespace Run

variable {e : Engine} {state : σ} {m : Module}

/-- A question finds the lists that there are at its start: looking changes none of them. -/
theorem Looks.childrenOf_eq {x y : Module} {r r' : Run σ τ} {ended : Bool}
    (hr : r.Looks h x ended r') :
    r'.engine.childrenOf h r'.state y = r.engine.childrenOf h r.state y := by
  rw [hr.eq.2]
  rfl

/-- **Calls come to an end and cover what is reached.** Let there be one handle of each name. Each
of the two calls comes to an end by itself. There are lists `K` by which a call of `autoreload`
goes; if the reload of one module does not change what another one declares, they are those at its
start. It covers what its module reaches along them, and all of it if it does not fail. A question
for change goes by the lists at its start, and covers all that is reached along them if the answer
is no. -/
theorem covers_calls (hone : e.OneHandle h m) (force : Bool) :
    let call := (start e state).autoreload h m force
    let question := (start e state).isOutdated h m true
    ((start e state : Run σ τ).ReloadEnds h m force ∧ (start e state : Run σ τ).QuestionEnds h m) ∧
    ((∃ K, Event.Finds K call.2.events) ∧
      (h.Separate (e.Reaches h state m) → Event.Finds (e.childrenOf h state) call.2.events) ∧
      ∀ K, Event.Finds K call.2.events → call.2.Covers h e m K (∃ b, call.1 = .ok b)) ∧
    Event.Finds (e.childrenOf h state) question.2.events ∧
      question.2.Covers h e m (e.childrenOf h state) (question.1 = false) := by
  intro call question
  refine ⟨⟨reloadEnds m force _, questionEnds m _⟩, ?_, ?_⟩
  · have hT := isTurn_settles h ((start e state : Run σ τ).engine.times.clock + 1)
    obtain ⟨vs, err, w, hu, hcall, -⟩ := (start e state).reloadEnds (h := h) m force
    obtain ⟨xs, ht⟩ := hu.exists_tour
    have hcall' : call = (answer err (vs.any Prod.fst), w.toRun) := hcall
    rw [hcall']
    refine ⟨Event.exists_finds (ht.tells hT (.opening e state)).nodup, fun hsep ↦ ?_, fun K hK ↦ ?_⟩
    · have hm : e.Reaches h state m m := .refl
      have hclosed : Module.Closed (e.Reaches h state m) (e.childrenOf h state) := hone.closed
      exact ht.finds hT hclosed.children (List.forall_mem_singleton.mpr hm)
        (fun _ _ _ _ _ hr hm hx hne ↦ hr.childrenOf_eq hsep hm hx hne) rfl
    · have hcovers := ht.covers hT (m := m) hone rfl rfl hK
      refine ⟨hcovers.once, hcovers.reached, ?_, hcovers.entries, hcovers.baselines⟩
      rintro ⟨b, hok⟩
      refine hcovers.all ?_
      cases err with
      | none => rfl
      | some e => simp at hok
  · obtain ⟨xs, ended, w, ht, hcall, -⟩ := (start e state).questionEnds (h := h) m
    have hcall' : question = (ended, w.toRun) := hcall
    rw [hcall']
    have hK :=
      ht.finds (isTurn_looks h) (P := fun _ ↦ True) (fun _ _ _ _ ↦ trivial) (fun _ _ ↦ trivial)
        (fun _ _ _ _ _ hr _ _ _ ↦ hr.childrenOf_eq) rfl
    exact ⟨hK, ht.covers (isTurn_looks h) hone rfl rfl hK⟩

end Run

/-! ## Two modules on a cycle -/

/-- An engine that remembers for one of two modules that depend on each other a further dependency,
which is loaded no more but was reloaded once. -/
def Engine.knotted : Engine :=
  { reloadedOnce "base" with
    dependencies := ⟨[("b", [.left, .base]), ("top", [.left])], by decide⟩ }

theorem Engine.oneHandle_knotted : knotted.OneHandle .knot .left := by
  have hgiven {a : Module} (ha : knotted.Holds .knot .left a) :
      a ∈ [Module.top, .left, .right, .base] :=
    ha.mem (by decide) (by decide) (by decide)
  intro a b ha hb hname
  exact List.inj_on_of_nodup_map (f := Module.name) (by decide) (hgiven ha) (hgiven hb) hname

/-- The two modules are reloaded one after the other. The dependency is asked for and looked at
once, though it is loaded no more, and what is remembered of the module above them stays. -/
theorem Run.covers_knotted :
    let call := (start Engine.knotted ()).autoreload .knot .left false
    call.1 = .ok true ∧ Event.reloads call.2.events = [.right, .left] ∧
      ((Event.askedNames call.2.events).count "base" = 1 ∧
        (Event.lookedNames call.2.events).count "base" = 1) ∧
      call.2.engine.dependencies.get? "top" = some [.left] := by
  intro call
  let K := Engine.knotted.childrenOf .knot ()
  have hok : call.1 = .ok true := by decide
  have hinside : ∀ y ∈ [Module.left, .right, .base], ∀ c ∈ K y,
      c ∈ [Module.left, .right, .base] := by decide
  have happart (x : Module) (hx : Module.left.ReachesBy K x) : x.name ≠ "top" := by
    have hnames : ∀ y ∈ [Module.left, .right, .base], y.name ≠ "top" := by decide
    refine hnames x ?_
    induction hx with
    | refl => exact List.mem_cons_self
    | tail _ hc ih => exact hinside _ ih _ hc
  obtain ⟨-, ⟨-, hsame, hcovers⟩, -⟩ :=
    @covers_calls Unit Unit .knot _ () .left Engine.oneHandle_knotted false
  have hcovers := hcovers K (hsame (Host.separate_sketch _ _ _))
  have hbase : Module.left.ReachesBy K .base :=
    .tail (.single (by decide : Module.right ∈ K .left)) (by decide)
  exact ⟨hok, by decide, hcovers.all ⟨true, hok⟩ .base hbase, (hcovers.entries "top" happart).1⟩

end ModuleReload
