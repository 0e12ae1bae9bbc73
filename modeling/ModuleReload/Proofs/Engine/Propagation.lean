import ModuleReload.Proofs.Engine.Sketch

/-!
# How reloads spread in a call

The walk of a call decides about a module by what the visits of its dependencies return and by the
times in between; a module that a second parent comes to has been visited by then, and only its time
tells that it was reloaded. What this amounts to is said here in terms of the lists of dependencies
by which the call goes.

* On any graph, a reload spreads upwards and is done from below: a module with a reloaded dependency
  is reloaded after it, unless the dependency reaches the module (`Run.reloads_autoreload_sublist`).
* On a graph without cycles, the modules that are reloaded are a least set: those that are forced,
  newer, or behind a dependency, and with each module all that depend on it
  (`Run.reloads_autoreload_iff`).

The first fact needs no more than the order of turns. A turn of a module that comes before that of
its dependency is taken while the dependency is being visited, further up; so the dependency reaches
it.
-/

namespace ModuleReload

variable {σ τ : Type} {h : Host σ τ} {tick : Tick} {K : Module → List Module}

/-! ## The set to be reloaded -/

/-- The least set of modules reached from `m` along the lists of `K` which holds `m` itself if it is
forced, the modules whose sources have changed, those that are behind a dependency, and those with a
dependency in the set. -/
inductive Engine.ToReload (fs : FileSystem) (K : Module → List Module) (m : Module) (force : Bool)
    (e : Engine) : Module → Prop
  | forced (hforce : force = true) : ToReload fs K m force e m
  | newer {x : Module} (hx : m.ReachesBy K x) (hnewer : e.isNewer fs x = true) :
      ToReload fs K m force e x
  | behind {x c : Module} (hx : m.ReachesBy K x) (hc : c ∈ K x) (hbehind : e.isBehind x c = true) :
      ToReload fs K m force e x
  | child {x c : Module} (hx : m.ReachesBy K x) (hc : c ∈ K x)
      (hbelow : ToReload fs K m force e c) : ToReload fs K m force e x

theorem Engine.toReload_iff {fs : FileSystem} {m x : Module} {force : Bool} {e : Engine} :
    e.ToReload fs K m force x ↔ m.ReachesBy K x ∧ Module.Affected K
      (fun y ↦ (force = true ∧ y = m) ∨ e.isDue fs y (K y) = true) x := by
  constructor
  · intro hx
    induction hx with
    | forced hforce => exact ⟨.refl, .self (.inl ⟨hforce, rfl⟩)⟩
    | newer hx hnewer => exact ⟨hx, .self (.inr (isDue_iff.mpr (.inl hnewer)))⟩
    | behind hx hc hbehind => exact ⟨hx, .self (.inr (isDue_iff.mpr (.inr ⟨_, hc, hbehind⟩)))⟩
    | child hx hc _ ih => exact ⟨hx, .child hc ih.2⟩
  · rintro ⟨hx, haffected⟩
    induction haffected with
    | self hself =>
      rcases hself with ⟨hforce, rfl⟩ | hdue
      · exact .forced hforce
      · rcases isDue_iff.mp hdue with hnewer | ⟨c, hc, hbehind⟩
        · exact .newer hx hnewer
        · exact .behind hx hc hbehind
    | child hc _ ih => exact .child hx hc (ih (.tail hx hc))

/-! ## The order of turns -/

namespace Visits

variable {e : Engine} {state : σ} {force : Bool} {ms : List Module} {m : Module} {w w' : Walk σ τ}
  {ts : List (Turn σ τ)} {err : Option ReloadError}

/-- A dependency has its turn before the module unless it reaches the module. -/
theorem exists_before_of_apart (hv : Visits h tick force ms w ts err w')
    (hts : ∀ t ∈ ts, t.children = K t.module) {t s : Turn σ τ} (ht : t ∈ ts) (hs : s ∈ ts)
    (hc : s.module ∈ K t.module) (hapart : ¬s.module.ReachesBy K t.module) :
    ∃ pre post, ts = pre ++ t :: post ∧ s ∈ pre := by
  have horder := hv.order (E := fun a b ↦ b ∈ K a) fun u hu d hd ↦ hts u hu ▸ hd
  obtain ⟨pre, post, rfl⟩ := List.append_of_mem ht
  refine ⟨pre, post, rfl, ?_⟩
  rw [List.pairwise_append, List.pairwise_cons] at horder
  rcases List.mem_append.mp hs with hbefore | hlate
  · exact hbefore
  rcases List.mem_cons.mp hlate with rfl | hlate
  · exact absurd .refl hapart
  · exact absurd (horder.2.1.1 s hlate _ (hts t ht ▸ hc) rfl) hapart

/-- Of two modules that a call reloads, a dependency comes first unless it reaches the module. -/
theorem sublist_reloads (hv : Visits h tick force ms (Walk.opening (.start e state)) ts err w')
    (hts : ∀ t ∈ ts, t.children = K t.module) {c x : Module} (hc : c ∈ Event.reloads w'.events)
    (hx : x ∈ Event.reloads w'.events) (hchild : c ∈ K x) (hapart : ¬c.ReachesBy K x) :
    [c, x].Sublist (Event.reloads w'.events) := by
  obtain ⟨s, hs, hreload, rfl⟩ := hv.mem_reloads.mp hc
  obtain ⟨t, ht, hreload', rfl⟩ := hv.mem_reloads.mp hx
  obtain ⟨pre, post, rfl, hbefore⟩ := hv.exists_before_of_apart hts ht hs hchild hapart
  have hturns : [s, t].Sublist (pre ++ t :: post) :=
    (List.singleton_sublist.mpr hbefore).append (List.singleton_sublist.mpr List.mem_cons_self)
  have hboth : [s.module, t.module] = ([s, t].filter (Turn.isReload h tick)).map Turn.module := by
    simp [hreload, hreload']
  rw [hv.reloads_eq, hboth]
  exact (hturns.filter _).map _

/-- If nothing fails, a module with a reloaded dependency is reloaded unless the dependency reaches
it: in its turn it is behind the dependency, which bears the tick of the call by then. -/
theorem mem_reloads_of_child (hone : e.OneHandle h m)
    (hv : Visits h tick force [m] (Walk.opening (.start e state)) ts none w')
    (htick : ∀ n u, e.times.get? n = some u → u < tick)
    (hts : ∀ t ∈ ts, t.children = K t.module) {c x : Module} (hc : c ∈ Event.reloads w'.events)
    (hx : m.ReachesBy K x) (hchild : c ∈ K x) (hapart : ¬c.ReachesBy K x) :
    x ∈ Event.reloads w'.events := by
  obtain ⟨s, hs, hreload, rfl⟩ := hv.mem_reloads.mp hc
  obtain ⟨hclosed, hm⟩ := hv.closed_turns hone rfl hts
  obtain ⟨t, ht, rfl⟩ := hclosed.of_reachesBy hm hx
  obtain ⟨pre, post, rfl, hbefore⟩ := hv.exists_before_of_apart hts ht hs hchild hapart
  have hbusy : t.isIdle h.files = false :=
    hv.isIdle_eq_false_of_child htick (hts t ht ▸ hchild)
      (.inl (Turn.anyReload_iff.mpr ⟨s, hbefore, hreload, rfl⟩))
  exact (hv.mem_reloads_iff_isReload ht).mpr (hv.isReload_of_not_isIdle ht hbusy)

theorem nodup_reloads (hv : Visits h tick force ms (Walk.opening (.start e state)) ts err w') :
    (Event.reloads w'.events).Nodup := by
  have hnames : ((ts.map Turn.module).map Module.name).Nodup := by
    rw [List.map_map]
    exact hv.nodup
  rw [hv.reloads_eq]
  exact (List.filter_sublist.map _).nodup hnames.of_map

/-- On a graph without cycles, a call in which nothing fails reloads what is to be reloaded. -/
theorem mem_reloads_iff_toReload (hone : e.OneHandle h m)
    (hv : Visits h tick force [m] (Walk.opening (.start e state)) ts none w')
    (htick : ∀ n u, e.times.get? n = some u → u < tick)
    (hts : ∀ t ∈ ts, t.children = K t.module)
    (hacyclic : ∀ x, m.ReachesBy K x → ¬Relation.TransGen (fun a b ↦ b ∈ K a) x x)
    (hsources : ∀ x y, m.ReachesBy K x → m.ReachesBy K y → x.SameSource h.files y → x = y)
    (x : Module) : x ∈ Event.reloads w'.events ↔ e.ToReload h.files K m force x := by
  obtain ⟨hclosed, hm⟩ := hv.closed_turns hone rfl hts
  have hreached : ∀ y, (∃ t ∈ ts, t.module = y) → m.ReachesBy K y := by
    rintro _ ⟨t, ht, rfl⟩
    exact hv.reachesBy hts ht
  have haffected {y : Module} (hy : m.ReachesBy K y) :=
    hv.anyReload_iff_affected hclosed hm rfl htick (fun t ht ↦ ⟨⟨t, ht, rfl⟩, hts t ht⟩) hacyclic
      (fun a b ha hb ↦ hsources a b (hreached a ha) (hreached b hb)) hy
  rw [Engine.toReload_iff, hv.mem_reloads]
  constructor
  · rintro ⟨t, ht, hreload, rfl⟩
    have hpath := hreached _ ⟨t, ht, rfl⟩
    exact ⟨hpath, (haffected hpath).mp ((hv.anyReload_iff_isReload ht).mpr hreload)⟩
  · rintro ⟨hpath, hx⟩
    obtain ⟨t, ht, rfl⟩ := hclosed.of_reachesBy hm hpath
    exact ⟨t, ht, (hv.anyReload_iff_isReload ht).mp ((haffected hpath).mpr hx), rfl⟩

end Visits

/-! ## What a call reloads -/

/-- Two modules depend on each other, and a third on one of them. -/
def Host.knot : Host Unit Unit :=
  .sketch [(.top, ["a"]), (.left, ["b"]), (.right, ["a"])] []

/-- Two modules depend on the same one, and a third depends on both. -/
def Host.diamond : Host Unit Unit :=
  .sketch [(.top, ["a", "b"]), (.left, ["base"]), (.right, ["base"]), (.base, [])] []

namespace Run

variable {e : Engine} {state : σ} {m : Module} {force : Bool} {result : Except ReloadError Bool}
  {r : Run σ τ}

/-- **Reloads spread upwards, and come from below.** There are lists `K` by which a call goes; if
the reload of one module does not change what another one declares, they are those at its start.
When the call reloads a module `c`, a module `x` that is reached and depends on `c` is reloaded
after `c`, unless `c` reaches `x`. If the call fails, this is the order of those that it has
reloaded by then. -/
theorem reloads_autoreload_sublist (hclock : e.Clocked) (hone : e.OneHandle h m)
    (hcall : (start e state).autoreload h m force = (result, r)) :
    (∃ K, Event.Finds K r.events) ∧
    (h.Separate (e.Reaches h state m) → Event.Finds (e.childrenOf h state) r.events) ∧
    ∀ K, Event.Finds K r.events → ∀ c ∈ Event.reloads r.events, ∀ x, c ∈ K x →
      ¬c.ReachesBy K x →
        (Event.failures r.events = [] → m.ReachesBy K x →
          [c, x].Sublist (Event.reloads r.events)) ∧
        (x ∈ Event.reloads r.events → [c, x].Sublist (Event.reloads r.events)) := by
  refine ⟨exists_finds hclock hcall, finds_of_separate hclock hone hcall,
    fun K hK c hc x hchild hapart ↦ ?_⟩
  obtain ⟨ts, err, w', hv, rfl, rfl⟩ := exists_visits_of_call hclock hcall
  have hts : ∀ t ∈ ts, t.children = K t.module := fun t ht ↦ hv.children_eq hK ht
  constructor
  · intro hok hx
    obtain rfl := hv.err_eq_none_iff.mpr hok
    have hreload := hv.mem_reloads_of_child hone hclock.lt_succ hts hc hx hchild hapart
    exact hv.sublist_reloads hts hc hreload hchild hapart
  · intro hreload
    exact hv.sublist_reloads hts hc hreload hchild hapart

/-- Two modules that depend on each other are reloaded one after the other, and then the module that
depends on the first of them. -/
theorem knot_reloads :
    let call := (start (.reloadedOnce "a") ()).autoreload .knot .top false
    Event.failures call.2.events = [] ∧
      [Module.left, Module.top].Sublist (Event.reloads call.2.events) := by
  intro call
  let K := (Engine.reloadedOnce "a").childrenOf .knot ()
  have hcall : (start (.reloadedOnce "a") ()).autoreload .knot .top false = (call.1, call.2) :=
    (Prod.eta _).symm
  have hone : (Engine.reloadedOnce "a").OneHandle .knot .top :=
    .of_nodup (by decide) (by decide) rfl
  have hpair : ∀ y ∈ [Module.left, Module.right], ∀ c ∈ K y, c ∈ [Module.left, Module.right] := by
    decide
  have hapart : ¬Module.left.ReachesBy K .top := by
    have hinside {y : Module} (hy : Module.left.ReachesBy K y) :
        y ∈ [Module.left, Module.right] := by
      induction hy with
      | refl => exact List.mem_cons_self
      | tail _ hc ih => exact hpair _ ih _ hc
    intro hpath
    exact absurd (hinside hpath) (by decide)
  obtain ⟨-, hsame, horder⟩ :=
    reloads_autoreload_sublist (Engine.clocked_reloadedOnce "a") hone hcall
  have hK : Event.Finds K call.2.events := hsame (Host.separate_sketch _ _ _)
  have hok : Event.failures call.2.events = [] := by decide
  exact ⟨hok, (horder K hK .left (by decide) .top (by decide) hapart).1 hok .refl⟩

/-- **Which modules a call reloads, on a graph without cycles.** There are lists `K` by which a call
goes; if the reload of one module does not change what another one declares, they are those at its
start. If no module depends on itself along them, sources are told apart, and nothing fails, then
the call reloads the modules of a least set, each once, and answers whether its own module is among
them. -/
theorem reloads_autoreload_iff (hclock : e.Clocked) (hone : e.OneHandle h m)
    (hcall : (start e state).autoreload h m force = (result, r))
    (hok : Event.failures r.events = []) :
    (∃ K, Event.Finds K r.events) ∧
    (h.Separate (e.Reaches h state m) → Event.Finds (e.childrenOf h state) r.events) ∧
    ∀ K, Event.Finds K r.events →
      (∀ x, m.ReachesBy K x → ¬Relation.TransGen (fun a b ↦ b ∈ K a) x x) →
      (∀ x y, m.ReachesBy K x → m.ReachesBy K y → x.SameSource h.files y → x = y) →
        (∀ x, x ∈ Event.reloads r.events ↔ e.ToReload h.files K m force x) ∧
        (Event.reloads r.events).Nodup ∧
        ∃ b, result = .ok b ∧ (b = true ↔ e.ToReload h.files K m force m) := by
  refine ⟨exists_finds hclock hcall, finds_of_separate hclock hone hcall,
    fun K hK hacyclic hsources ↦ ?_⟩
  obtain ⟨ts, err, w', hv, rfl, rfl⟩ := exists_visits_of_call hclock hcall
  obtain rfl := hv.err_eq_none_iff.mpr hok
  have hreloads := hv.mem_reloads_iff_toReload hone hclock.lt_succ
    (fun t ht ↦ hv.children_eq hK ht) hacyclic hsources
  refine ⟨hreloads, hv.nodup_reloads, _, rfl, ?_⟩
  obtain ⟨-, t, ht, rfl⟩ := hv.closed_turns hone rfl fun t ht ↦ hv.children_eq hK ht
  rw [← hreloads, hv.mem_reloads_iff_isReload ht, hv.anyReload_iff_isReload ht]

/-- In the diamond, the reload of the lowest module is made up for by all others. It is not
repeated, though both of the modules above it are behind it. -/
theorem diamond_reloads :
    let e := Engine.reloadedOnce "base"
    let K := e.childrenOf .diamond ()
    let call := (start e ()).autoreload .diamond .top false
    (∀ x, x ∈ Event.reloads call.2.events ↔ e.ToReload .empty K .top false x) ∧
      (Event.reloads call.2.events).Nodup ∧ call.1 = .ok true ∧
      .base ∉ Event.reloads call.2.events := by
  intro e K call
  have hcall : (start e ()).autoreload .diamond .top false = (call.1, call.2) :=
    (Prod.eta _).symm
  have hone : e.OneHandle .diamond .top := .of_nodup (by decide) (by decide) rfl
  let height (x : Module) : Nat := if x = .top then 2 else if x = .base then 0 else 1
  have hdown : ∀ x ∈ Host.diamond.modules, ∀ c ∈ K x, c ∈ Host.diamond.modules ∧
      height c < height x := by
    decide
  have hmem {x : Module} (hx : Module.top.ReachesBy K x) : x ∈ Host.diamond.modules := by
    induction hx with
    | refl => exact List.mem_cons_self
    | tail _ hc ih => exact (hdown _ ih _ hc).1
  have hfile : ∀ x ∈ Host.diamond.modules, x.file = none := by decide
  obtain ⟨-, hsame, hexact⟩ :=
    reloads_autoreload_iff (Engine.clocked_reloadedOnce "base") hone hcall (by decide)
  have hK : Event.Finds K call.2.events := hsame (Host.separate_sketch _ _ _)
  obtain ⟨hreloads, hnodup, -⟩ := hexact K hK
    (fun x hx ↦ Module.acyclic_of_rank height hdown (hmem hx)) (by
      rintro x y hx - ⟨p, -, hp, -⟩
      rw [Dependencies.sourceOf?, hfile x (hmem hx)] at hp
      simp at hp)
  exact ⟨hreloads, hnodup, by decide, by decide⟩

end Run

end ModuleReload
