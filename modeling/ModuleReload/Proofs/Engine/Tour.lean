import Mathlib.Logic.Relation
import ModuleReload.Proofs.Engine.Coming

/-!
# Tours of the dependencies

Both walks of the engine go the same way: depth first from a module to its dependencies, passing
over what has been visited, with the turn of a module after the visits of its dependencies. They
differ in what is done in a turn, and in what ends them early: a failure ends one of them, a change
that is found the other. A `Tour` is what they share. It knows no bound, and of a turn only what the
turn leads to.

What a tour says about names needs no more than that: no module has two turns (`Tour.nodup`), and
one that is not ended early has come to all of its list and, with a module, to all dependencies
found for it (`Tour.exists_children`). If turns concern none but their own modules (`IsTurn`), then
all that is asked for is reached along the lists that are found (`Tour.reached`), and what belongs
to no module that is come to stays as it is (`Tour.unchanged`).
-/

namespace ModuleReload

variable {σ τ : Type} {h : Host σ τ} {tick : Tick}

/-! ## Reaching modules -/

/-- The first module reaches the second along the lists of dependencies that `K` says. -/
def Module.ReachesBy (K : Module → List Module) : Module → Module → Prop :=
  Relation.ReflTransGen fun a b ↦ b ∈ K a

/-- A set of modules with one handle of each name, out of which no dependency leads. -/
structure Module.Closed (P : Module → Prop) (K : Module → List Module) : Prop where
  children : ∀ x, P x → ∀ c ∈ K x, P c
  handle : ∀ x y, P x → P y → x.name = y.name → x = y

theorem Module.Closed.of_reachesBy {P : Module → Prop} {K : Module → List Module} {x y : Module}
    (hP : Closed P K) (hx : P x) (hy : x.ReachesBy K y) : P y := by
  induction hy with
  | refl => exact hx
  | tail _ hc ih => exact hP.children _ ih _ hc

/-- What modules of a closed set reach is told by the lists of its modules. -/
theorem Module.Closed.reachesBy_congr {P : Module → Prop} {K K' : Module → List Module}
    {x y : Module} (hP : Closed P K) (hK : ∀ x, P x → K' x = K x) (hx : P x) :
    x.ReachesBy K' y ↔ x.ReachesBy K y := by
  constructor
  · intro hy
    induction hy with
    | refl => exact .refl
    | tail _ hc ih => exact .tail ih (hK _ (hP.of_reachesBy hx ih) ▸ hc)
  · intro hy
    induction hy with
    | refl => exact .refl
    | tail hb hc ih => exact .tail ih (hK _ (hP.of_reachesBy hx hb) ▸ hc)

/-! ## Turns -/

/-- That what is done in turns concerns none but their own modules: the source of the module is
looked at once, nothing is asked for, and only for this module may something be forgotten, a time
change, or its source get a new baseline. -/
structure IsTurn (h : Host σ τ) (T : Module → Run σ τ → Bool → Run σ τ → Prop) : Prop where
  looks : ∀ {m r ended r'}, T m r ended r' → Event.looks r'.events = Event.looks r.events ++ [m]
  findings : ∀ {m r ended r'}, T m r ended r' → Event.findings r'.events = Event.findings r.events
  remembered : ∀ {m r ended r' n children}, T m r ended r' →
    r'.engine.dependencies.get? n = some children → r.engine.dependencies.get? n = some children
  dependencies : ∀ {m r ended r' n}, T m r ended r' → n ≠ m.name →
    r'.engine.dependencies.get? n = r.engine.dependencies.get? n
  times : ∀ {m r ended r' n}, T m r ended r' → n ≠ m.name →
    r'.engine.times.get? n = r.engine.times.get? n
  baseline : ∀ {m r ended r' x}, T m r ended r' → ¬m.SameSource h.files x →
    r'.engine.baseline? h.files x = r.engine.baseline? h.files x

namespace Run

/-- A module is settled: its source is looked at, and it is reloaded if that shows a change or it is
due anyway. A failure ends the walk. -/
def Settles (h : Host σ τ) (tick : Tick) (m : Module) (r : Run σ τ) (ended : Bool) (r' : Run σ τ) :
    Prop :=
  ∃ due result, r.settle h tick due m = (result, r') ∧ ended = (result matches .error _)

/-- The source of a module is looked at. A change ends the walk. -/
def Looks (h : Host σ τ) (m : Module) (r : Run σ τ) (ended : Bool) (r' : Run σ τ) : Prop :=
  r.isStale h m = (ended, r')

variable {m : Module} {r r' : Run σ τ} {ended : Bool}

theorem Settles.exists_turn (hr : r.Settles h tick m ended r') :
    ∃ t : Turn σ τ, t.module = m ∧ t.before.toRun = r ∧ (t.after h tick).toRun = r' := by
  obtain ⟨due, result, hsettle, -⟩ := hr
  refine ⟨⟨m, [], due, ⟨r, []⟩⟩, rfl, rfl, ?_⟩
  have hdue : Turn.due ⟨m, [], due, ⟨r, []⟩⟩ = due := Bool.or_false due
  rw [Turn.after, Turn.outcome, hdue, hsettle]
  rfl

theorem settles_turn {t : Turn σ τ} (ht : t.isFailure h tick = ended) :
    t.before.Settles h tick t.module ended (t.outcome h tick).2 :=
  ⟨t.due, (t.outcome h tick).1, rfl, ht.symm⟩

theorem isTurn_settles (h : Host σ τ) (tick : Tick) : IsTurn h (fun m r ↦ r.Settles h tick m) where
  looks hr := by
    obtain ⟨t, rfl, rfl, rfl⟩ := hr.exists_turn
    exact t.looks_after h tick
  findings hr := by
    obtain ⟨t, rfl, rfl, rfl⟩ := hr.exists_turn
    exact t.findings_after h tick
  remembered hr hn := by
    obtain ⟨t, rfl, rfl, rfl⟩ := hr.exists_turn
    rw [t.after_dependencies_get?] at hn
    split at hn
    · simp at hn
    · exact hn
  dependencies hr hne := by
    obtain ⟨t, rfl, rfl, rfl⟩ := hr.exists_turn
    rw [t.after_dependencies_get?, if_neg fun hc ↦ hne hc.2]
  times hr hne := by
    obtain ⟨t, rfl, rfl, rfl⟩ := hr.exists_turn
    rw [t.after_times_get?, if_neg fun hc ↦ hne hc.2]
  baseline hr hother := by
    obtain ⟨t, rfl, rfl, rfl⟩ := hr.exists_turn
    exact t.after_baseline? h tick hother

theorem Looks.eq (hr : r.Looks h m ended r') :
    ended = r.engine.isNewer h.files m ∧
      r' = ⟨r.engine.look h.files m, r.state, r.events ++ [.checked m]⟩ := by
  rw [Looks, isStale_eq] at hr
  obtain ⟨hended, hrun⟩ := Prod.mk.inj hr
  exact ⟨hended.symm, hrun.symm⟩

theorem isTurn_looks (h : Host σ τ) : IsTurn h (fun m r ↦ r.Looks h m) where
  looks hr := by rw [hr.eq.2]; simp [Event.looks]
  findings hr := by rw [hr.eq.2]; simp [Event.findings]
  remembered hr hn := by rw [hr.eq.2] at hn; exact hn
  dependencies hr _ := by rw [hr.eq.2]; rfl
  times hr _ := by rw [hr.eq.2]; rfl
  baseline hr hother := by rw [hr.eq.2]; exact Engine.baseline?_look hother

end Run

/-! ## Tours -/

/-- The visits of modules in order, with the modules that have had their turns, in the order of
these, and whether the last turn has ended the walk. A module that has been visited is passed
over. -/
inductive Tour (h : Host σ τ) (T : Module → Run σ τ → Bool → Run σ τ → Prop) :
    List Module → Walk σ τ → List Module → Bool → Walk σ τ → Prop
  | done {w : Walk σ τ} (ns : List Notice) : Tour h T [] w [] false (w.noted ns)
  | skip {m : Module} {ms xs : List Module} {w w' : Walk σ τ} {ended : Bool}
      (hseen : m.name ∈ w.visited)
      (hrest : Tour h T ms w xs ended w') : Tour h T (m :: ms) w xs ended w'
  | broken {m : Module} {ms xs : List Module} {w w' : Walk σ τ} (ns : List Notice)
      (hnew : m.name ∉ w.visited)
      (hbelow : Tour h T (w.engine.childrenOf h w.state m) (w.entering h ns m) xs true w') :
      Tour h T (m :: ms) w xs true w'
  | stop {m : Module} {ms xs : List Module} {w w₁ : Walk σ τ} {r : Run σ τ} (ns : List Notice)
      (hnew : m.name ∉ w.visited)
      (hbelow : Tour h T (w.engine.childrenOf h w.state m) (w.entering h ns m) xs false w₁)
      (hturn : T m w₁.toRun true r) : Tour h T (m :: ms) w (xs ++ [m]) true (w₁.put r)
  | turn {m : Module} {ms xs ys : List Module} {w w₁ w' : Walk σ τ} {r : Run σ τ} {ended : Bool}
      (ns : List Notice) (hnew : m.name ∉ w.visited)
      (hbelow : Tour h T (w.engine.childrenOf h w.state m) (w.entering h ns m) xs false w₁)
      (hturn : T m w₁.toRun false r) (hrest : Tour h T ms (w₁.put r) ys ended w') :
      Tour h T (m :: ms) w (xs ++ m :: ys) ended w'

namespace Tour

variable {T : Module → Run σ τ → Bool → Run σ τ → Prop} {ms ms' xs ys : List Module}
  {w w₁ w' : Walk σ τ} {ended : Bool} {K : Module → List Module} {m x : Module} {n : String}

theorem of_noted {ns : List Notice} (ht : Tour h T ms (w.noted ns) xs ended w') :
    Tour h T ms w xs ended w' := by
  generalize hw : w.noted ns = v at ht
  induction ht with
  | done ns' => subst hw; rw [Walk.noted_noted]; exact .done _
  | skip hseen _ ih => subst hw; exact .skip hseen (ih rfl)
  | broken ns' hnew hbelow _ =>
    subst hw
    rw [Walk.entering_noted] at hbelow
    exact .broken _ hnew hbelow
  | stop ns' hnew hbelow hturn _ =>
    subst hw
    rw [Walk.entering_noted] at hbelow
    exact .stop _ hnew hbelow hturn
  | turn ns' hnew hbelow hturn hrest _ _ =>
    subst hw
    rw [Walk.entering_noted] at hbelow
    exact .turn _ hnew hbelow hturn hrest

theorem append (h₁ : Tour h T ms w xs false w₁) (h₂ : Tour h T ms' w₁ ys ended w') :
    Tour h T (ms ++ ms') w (xs ++ ys) ended w' := by
  generalize hfalse : false = b at h₁
  induction h₁ with
  | done => exact of_noted h₂
  | skip hseen _ ih => exact .skip hseen (ih h₂ hfalse)
  | broken => simp at hfalse
  | stop => simp at hfalse
  | turn ns hnew hbelow hturn _ _ ih =>
    rw [List.append_assoc]
    exact .turn ns hnew hbelow hturn (ih h₂ hfalse)

theorem of_ended (ht : Tour h T ms w xs true w') : Tour h T (ms ++ ms') w xs true w' := by
  generalize htrue : true = b at ht
  induction ht with
  | done => simp at htrue
  | skip hseen _ ih => exact .skip hseen (ih htrue)
  | broken ns hnew hbelow _ => exact .broken ns hnew hbelow
  | stop ns hnew hbelow hturn _ => exact .stop ns hnew hbelow hturn
  | turn ns hnew hbelow hturn _ _ ih => exact .turn ns hnew hbelow hturn (ih htrue)

theorem nil : Tour h T [] w [] false w := by
  have hdone : Tour h T [] w [] false (w.noted []) := .done []
  rwa [Walk.noted_nil] at hdone

theorem passed (hseen : m.name ∈ w.visited) : Tour h T [m] w [] false w :=
  .skip hseen nil

/-! ### Names -/

theorem visited_subset (ht : Tour h T ms w xs ended w') : w.visited ⊆ w'.visited := by
  induction ht with
  | done => exact List.Subset.refl _
  | skip _ _ ih => exact ih
  | broken ns _ _ ih => exact fun n hn ↦ ih (List.mem_cons_of_mem _ hn)
  | stop ns _ _ _ ih => exact fun n hn ↦ ih (List.mem_cons_of_mem _ hn)
  | turn ns _ _ _ _ ih₁ ih₂ => exact fun n hn ↦ ih₂ (ih₁ (List.mem_cons_of_mem _ hn))

theorem mem_visited (ht : Tour h T ms w xs ended w') (hx : x ∈ xs) :
    x.name ∉ w.visited ∧ x.name ∈ w'.visited := by
  have hcons {n a : String} {l : List String} (hn : n ∉ a :: l) : n ∉ l :=
    fun hmem ↦ hn (List.mem_cons_of_mem _ hmem)
  induction ht with
  | done => simp at hx
  | skip _ _ ih => exact ih hx
  | broken ns _ _ ih => exact ⟨hcons (ih hx).1, (ih hx).2⟩
  | stop ns hnew hbelow _ ih =>
    rcases List.mem_append.mp hx with hx | hx
    · exact ⟨hcons (ih hx).1, (ih hx).2⟩
    · obtain rfl := List.mem_singleton.mp hx
      exact ⟨hnew, hbelow.visited_subset List.mem_cons_self⟩
  | turn ns hnew hbelow _ hrest ih₁ ih₂ =>
    rcases List.mem_append.mp hx with hx | hx
    · exact ⟨hcons (ih₁ hx).1, hrest.visited_subset (ih₁ hx).2⟩
    · rcases List.mem_cons.mp hx with rfl | hx
      · exact ⟨hnew, hrest.visited_subset (hbelow.visited_subset List.mem_cons_self)⟩
      · refine ⟨fun hmem ↦ (ih₂ hx).1 ?_, (ih₂ hx).2⟩
        exact hbelow.visited_subset (List.mem_cons_of_mem _ hmem)

theorem nodup (ht : Tour h T ms w xs ended w') : (xs.map Module.name).Nodup := by
  induction ht with
  | done => exact List.nodup_nil
  | skip _ _ ih => exact ih
  | broken ns _ _ ih => exact ih
  | @stop m _ xs _ _ _ ns _ hbelow _ ih =>
    rw [List.map_append, List.nodup_append]
    refine ⟨ih, by simp, ?_⟩
    rintro n hn n' hn' rfl
    obtain ⟨x, hx, rfl⟩ := List.mem_map.mp hn
    rw [List.map_singleton, List.mem_singleton] at hn'
    exact (hbelow.mem_visited hx).1 (hn' ▸ List.mem_cons_self)
  | turn ns _ hbelow _ hrest ih₁ ih₂ =>
    rw [List.map_append, List.map_cons, List.nodup_append, List.nodup_cons]
    refine ⟨ih₁, ⟨?_, ih₂⟩, ?_⟩
    · intro hn
      obtain ⟨y, hy, hname⟩ := List.mem_map.mp hn
      exact (hrest.mem_visited hy).1 (hname ▸ hbelow.visited_subset List.mem_cons_self)
    · rintro n hn n' hn' rfl
      obtain ⟨x, hx, rfl⟩ := List.mem_map.mp hn
      rcases List.mem_cons.mp hn' with hname | hn'
      · exact (hbelow.mem_visited hx).1 (hname ▸ List.mem_cons_self)
      · obtain ⟨y, hy, hname⟩ := List.mem_map.mp hn'
        exact (hrest.mem_visited hy).1 (hname ▸ (hbelow.mem_visited hx).2)

theorem mem_visited_of_mem (ht : Tour h T ms w xs false w') (hm : m ∈ ms) :
    m.name ∈ w'.visited := by
  generalize hfalse : false = b at ht
  induction ht with
  | done => simp at hm
  | skip hseen hrest ih =>
    rcases List.mem_cons.mp hm with rfl | hm
    · exact hrest.visited_subset hseen
    · exact ih hm hfalse
  | broken => simp at hfalse
  | stop => simp at hfalse
  | turn ns _ hbelow _ hrest _ ih =>
    rcases List.mem_cons.mp hm with rfl | hm
    · exact hrest.visited_subset (hbelow.visited_subset List.mem_cons_self)
    · exact ih hm hfalse

theorem mem_visited_iff (ht : Tour h T ms w xs false w') :
    n ∈ w'.visited ↔ n ∈ w.visited ∨ ∃ x ∈ xs, x.name = n := by
  constructor
  · intro hn
    generalize hfalse : false = b at ht
    induction ht with
    | done => exact .inl hn
    | skip _ _ ih => exact ih hn hfalse
    | broken => simp at hfalse
    | stop => simp at hfalse
    | turn ns _ _ _ _ ih₁ ih₂ =>
      rcases ih₂ hn hfalse with hn | ⟨y, hy, rfl⟩
      · rcases ih₁ hn rfl with hn | ⟨x, hx, rfl⟩
        · rcases List.mem_cons.mp hn with rfl | hn
          · exact .inr ⟨_, by simp, rfl⟩
          · exact .inl hn
        · exact .inr ⟨x, List.mem_append_left _ hx, rfl⟩
      · exact .inr ⟨y, by simp [hy], rfl⟩
  · rintro (hn | ⟨x, hx, rfl⟩)
    · exact ht.visited_subset hn
    · exact (ht.mem_visited hx).2

/-! ### What holds all along -/

/-- **What holds all along.** Let `I` hold of the walk and `P` of the modules to be visited. If
notices keep `I`, if coming to a module of `P` keeps `I` and finds only modules of `P`, and if each
turn keeps `I`, then `I` holds at the end, and `P` of the modules that have had their turns. -/
theorem invariant {I : Walk σ τ → Prop} {P : Module → Prop} (ht : Tour h T ms w xs ended w')
    (hw : I w) (hms : ∀ m ∈ ms, P m) (hsay : ∀ v ns, I v → I (v.noted ns))
    (hdown : ∀ v ns m, I v → P m → m.name ∉ v.visited →
      I (v.entering h ns m) ∧ ∀ c ∈ v.engine.childrenOf h v.state m, P c)
    (hturn : ∀ v m b r, I v → P m → m.name ∈ v.visited → T m v.toRun b r → I (v.put r)) :
    I w' ∧ ∀ x ∈ xs, P x := by
  induction ht with
  | done ns => exact ⟨hsay _ _ hw, by simp⟩
  | skip _ _ ih => exact ih hw fun m hm ↦ hms m (List.mem_cons_of_mem _ hm)
  | broken ns hnew _ ih =>
    obtain ⟨hent, hchildren⟩ := hdown _ ns _ hw (hms _ List.mem_cons_self) hnew
    exact ih hent hchildren
  | stop ns hnew hbelow ht ih =>
    have hm := hms _ List.mem_cons_self
    obtain ⟨hent, hchildren⟩ := hdown _ ns _ hw hm hnew
    obtain ⟨hI, hxs⟩ := ih hent hchildren
    refine ⟨hturn _ _ _ _ hI hm (hbelow.visited_subset List.mem_cons_self) ht, ?_⟩
    rw [List.forall_mem_append, List.forall_mem_singleton]
    exact ⟨hxs, hm⟩
  | turn ns hnew hbelow ht _ ih₁ ih₂ =>
    have hm := hms _ List.mem_cons_self
    obtain ⟨hent, hchildren⟩ := hdown _ ns _ hw hm hnew
    obtain ⟨hI, hxs⟩ := ih₁ hent hchildren
    obtain ⟨hend, hys⟩ := ih₂ (hturn _ _ _ _ hI hm (hbelow.visited_subset List.mem_cons_self) ht)
      fun n hn ↦ hms n (List.mem_cons_of_mem _ hn)
    refine ⟨hend, ?_⟩
    rw [List.forall_mem_append, List.forall_mem_cons]
    exact ⟨hxs, hm, hys⟩

/-! ### On the account -/

/-- The modules whose sources are looked at are those that have their turns. -/
theorem looks_eq (hT : IsTurn h T) (ht : Tour h T ms w xs ended w') :
    Event.looks w'.events = Event.looks w.events ++ xs := by
  induction ht with
  | done ns => simp [(Walk.asks_noted ns _).looks]
  | skip _ _ ih => exact ih
  | broken ns _ _ ih => rw [ih, (Walk.asks_entering h ns _ _).looks]
  | stop ns _ _ hturn ih =>
    have hlast := hT.looks hturn
    rw [ih, (Walk.asks_entering h ns _ _).looks, List.append_assoc] at hlast
    exact hlast
  | turn ns _ _ hturn _ ih₁ ih₂ =>
    have hmid := hT.looks hturn
    rw [ih₁, (Walk.asks_entering h ns _ _).looks] at hmid
    rw [ih₂, Walk.put, hmid]
    simp

theorem findings_prefix (hT : IsTurn h T) (ht : Tour h T ms w xs ended w') :
    Event.findings w.events <+: Event.findings w'.events := by
  refine (ht.invariant (I := fun v ↦ Event.findings w.events <+: Event.findings v.events)
    (P := fun _ ↦ True) List.prefix_rfl (fun _ _ ↦ trivial) (fun v ns hv ↦ ?_)
    (fun v ns m hv _ _ ↦ ⟨?_, fun _ _ ↦ trivial⟩) fun v m b r hv _ _ hturn ↦ ?_).1
  · rw [Walk.findings_noted]
    exact hv
  · rw [Walk.findings_entering]
    exact hv.trans (List.prefix_append _ _)
  · exact hT.findings hturn ▸ hv

theorem mem_findings_of_entering {v v' : Walk σ τ} {ns : List Notice} (hT : IsTurn h T)
    (hbelow : Tour h T ms (v.entering h ns m) ys ended v') :
    (m, v.engine.childrenOf h v.state m) ∈ Event.findings v'.events := by
  refine (hbelow.findings_prefix hT).subset ?_
  rw [Walk.findings_entering]
  exact List.mem_append_right _ (List.mem_singleton.mpr rfl)

theorem tells (hT : IsTurn h T) (ht : Tour h T ms w xs ended w') (hw : w.Tells) : w'.Tells := by
  refine (ht.invariant (I := Walk.Tells) (P := fun _ ↦ True) hw (fun _ _ ↦ trivial)
    (fun v ns hv ↦ ?_)
    (fun v ns m hv _ hnew ↦ ⟨hv.entering ns hnew, fun _ _ ↦ trivial⟩) fun v m b r hv _ _ hturn ↦
    ?_).1
  · exact ⟨by simpa using hv.visited, by simpa using hv.nodup⟩
  · exact ⟨hT.findings hturn ▸ hv.visited, hT.findings hturn ▸ hv.nodup⟩

/-- A module that has had its turn was asked for before, and all dependencies found for it have been
visited since. -/
theorem exists_children (hT : IsTurn h T) (ht : Tour h T ms w xs ended w') (hx : x ∈ xs) :
    ∃ children, (x, children) ∈ Event.findings w'.events ∧ ∀ c ∈ children, c.name ∈ w'.visited := by
  induction ht with
  | done => simp at hx
  | skip _ _ ih => exact ih hx
  | broken ns _ _ ih => exact ih hx
  | stop ns _ hbelow hturn ih =>
    rw [Walk.put, hT.findings hturn]
    rcases List.mem_append.mp hx with hx | hx
    · exact ih hx
    · obtain rfl := List.mem_singleton.mp hx
      exact ⟨_, mem_findings_of_entering hT hbelow, fun c hc ↦ hbelow.mem_visited_of_mem hc⟩
  | turn ns _ hbelow hturn hrest ih₁ ih₂ =>
    have hlater := (hrest.findings_prefix hT).subset
    rw [Walk.put, hT.findings hturn] at hlater
    rcases List.mem_append.mp hx with hx | hx
    · obtain ⟨children, hmem, hchildren⟩ := ih₁ hx
      exact ⟨children, hlater hmem, fun c hc ↦ hrest.visited_subset (hchildren c hc)⟩
    · rcases List.mem_cons.mp hx with rfl | hx
      · exact ⟨_, hlater (mem_findings_of_entering hT hbelow),
          fun c hc ↦ hrest.visited_subset (hbelow.mem_visited_of_mem hc)⟩
      · exact ih₂ hx

/-- **All that is asked for on a tour is reached** from its list, along the lists that are found on
it. -/
theorem reached (hT : IsTurn h T) (ht : Tour h T ms w xs ended w') (hK : Event.Finds K w'.events)
    {p : Module × List Module} (hp : p ∈ Event.findings w'.events) :
    p ∈ Event.findings w.events ∨ ∃ m ∈ ms, m.ReachesBy K p.1 := by
  replace hK : ∀ q ∈ Event.findings w'.events, q.2 = K q.1 :=
    fun q hq ↦ hK _ _ (Event.mem_findings.mp hq)
  -- What is asked for on the way to the turn of a module is the module, or reached from a
  -- dependency of it.
  have hdown {v v' : Walk σ τ} {m : Module} {ns : List Notice} {ys : List Module} {b : Bool}
      (hbelow : Tour h T (v.engine.childrenOf h v.state m) (v.entering h ns m) ys b v')
      (hK : ∀ q ∈ Event.findings v'.events, q.2 = K q.1)
      (hp : p ∈ Event.findings (v.entering h ns m).events ∨
        ∃ c ∈ v.engine.childrenOf h v.state m, c.ReachesBy K p.1) :
      p ∈ Event.findings v.events ∨ m.ReachesBy K p.1 := by
    have hlist : v.engine.childrenOf h v.state m = K m :=
      hK (m, _) (mem_findings_of_entering hT hbelow)
    rcases hp with hp | ⟨c, hc, hpath⟩
    · rw [Walk.findings_entering] at hp
      rcases List.mem_append.mp hp with hp | hp
      · exact .inl hp
      · obtain rfl := List.mem_singleton.mp hp
        exact .inr .refl
    · exact .inr (.head (hlist ▸ hc) hpath)
  induction ht with
  | done ns =>
    rw [Walk.findings_noted] at hp
    exact .inl hp
  | skip _ _ ih =>
    exact (ih hp hK).imp_right fun ⟨a, ha, hpath⟩ ↦ ⟨a, List.mem_cons_of_mem _ ha, hpath⟩
  | broken ns _ hbelow ih =>
    exact (hdown hbelow hK (ih hp hK)).imp_right fun hpath ↦ ⟨_, List.mem_cons_self, hpath⟩
  | stop ns _ hbelow hturn ih =>
    rw [Walk.put, hT.findings hturn] at hp hK
    exact (hdown hbelow hK (ih hp hK)).imp_right fun hpath ↦ ⟨_, List.mem_cons_self, hpath⟩
  | turn ns _ hbelow hturn hrest ih₁ ih₂ =>
    have hbefore := (hrest.findings_prefix hT).subset
    rw [Walk.put, hT.findings hturn] at hbefore
    rcases ih₂ hp hK with hp | ⟨a, ha, hpath⟩
    · rw [Walk.put, hT.findings hturn] at hp
      have hK₁ := fun q hq ↦ hK q (hbefore hq)
      exact (hdown hbelow hK₁ (ih₁ hp hK₁)).imp_right fun hpath ↦ ⟨_, List.mem_cons_self, hpath⟩
    · exact .inr ⟨a, List.mem_cons_of_mem _ ha, hpath⟩

/-- **What belongs to no module that is come to stays as it is.** Here `f` is something of an
engine, which only modules that touch it change. -/
theorem unchanged {α : Type} (f : Engine → α) (touches : Module → Prop) (hT : IsTurn h T)
    (ht : Tour h T ms w xs ended w')
    (hcome : ∀ (v : Walk σ τ) ns m, ¬touches m → f (v.entering h ns m).engine = f v.engine)
    (hturn : ∀ m r b r', T m r b r' → ¬touches m → f r'.engine = f r.engine)
    (hclear : ∀ p ∈ Event.findings w'.events, ¬touches p.1) : f w'.engine = f w.engine := by
  induction ht with
  | done ns => rw [Walk.noted_engine]
  | skip _ _ ih => exact ih hclear
  | broken ns _ hbelow ih =>
    rw [ih hclear, hcome _ _ _ (hclear _ (mem_findings_of_entering hT hbelow))]
  | stop ns _ hbelow hstop ih =>
    rw [Walk.put, hT.findings hstop] at hclear
    have hm := hclear _ (mem_findings_of_entering hT hbelow)
    rw [Walk.put, hturn _ _ _ _ hstop hm, ih hclear, hcome _ _ _ hm]
  | turn ns _ hbelow hok hrest ih₁ ih₂ =>
    have hbefore := (hrest.findings_prefix hT).subset
    rw [Walk.put, hT.findings hok] at hbefore
    have hclear₁ := fun p hp ↦ hclear p (hbefore hp)
    have hm := hclear₁ _ (mem_findings_of_entering hT hbelow)
    rw [ih₂ hclear, Walk.put, hturn _ _ _ _ hok hm, ih₁ hclear₁, hcome _ _ _ hm]

end Tour

end ModuleReload
