import ModuleReload.Proofs.Engine.Tour

/-!
# The visits of a call

The walk of `autoreload` is a tour, in whose turns modules are reloaded. `Visits` tells it by its
turns: the visits of a list of modules in order, with the turns that were taken, in the order in
which they ended. A module's turn comes after the visits of its dependencies, and its decision is
read off the walk as it is then (`Turn.due`). So the visits of a call are a row of turns as well
(`Visits.replays`), and what they do to names is what every tour does (`Visits.tour`).

The walk itself keeps a flag instead, from what each visit came to. That it comes to the same is
shown where the walk is unwound.
-/

namespace ModuleReload

variable {σ τ : Type} {h : Host σ τ} {tick : Tick}

/-! ## Visits -/

/-- The visits of modules in order, with the turns taken and the error that ended them, if any. A
module that has been visited is passed over. An error may arise below a module, in its turn, or
later. -/
inductive Visits (h : Host σ τ) (tick : Tick) : Bool → List Module → Walk σ τ →
    List (Turn σ τ) → Option ReloadError → Walk σ τ → Prop
  | done {force : Bool} {w : Walk σ τ} (ns : List Notice) :
      Visits h tick force [] w [] none (w.noted ns)
  | skip {force : Bool} {m : Module} {ms : List Module} {w w' : Walk σ τ}
      {ts : List (Turn σ τ)} {err : Option ReloadError} (hseen : m.name ∈ w.visited)
      (hrest : Visits h tick force ms w ts err w') :
      Visits h tick force (m :: ms) w ts err w'
  | broken {force : Bool} {m : Module} {ms : List Module} {w w' : Walk σ τ}
      {ts : List (Turn σ τ)} {e : ReloadError} (ns : List Notice) (hnew : m.name ∉ w.visited)
      (hbelow : Visits h tick false (w.engine.childrenOf h w.state m) (w.entering h ns m) ts
        (some e) w') :
      Visits h tick force (m :: ms) w ts (some e) w'
  | fail {force : Bool} {m : Module} {ms : List Module} {w w₁ : Walk σ τ}
      {ts : List (Turn σ τ)} {t : Turn σ τ} {e : ReloadError} (ns : List Notice)
      (hnew : m.name ∉ w.visited)
      (hbelow : Visits h tick false (w.engine.childrenOf h w.state m) (w.entering h ns m) ts
        none w₁)
      (ht : t = ⟨m, w.engine.childrenOf h w.state m, force, w₁⟩)
      (hfail : (t.outcome h tick).1 = .error e) :
      Visits h tick force (m :: ms) w (ts ++ [t]) (some e) (t.after h tick)
  | turn {force : Bool} {m : Module} {ms : List Module} {w w₁ w' : Walk σ τ}
      {ts us : List (Turn σ τ)} {t : Turn σ τ} {b : Bool} {err : Option ReloadError}
      (ns : List Notice) (hnew : m.name ∉ w.visited)
      (hbelow : Visits h tick false (w.engine.childrenOf h w.state m) (w.entering h ns m) ts
        none w₁)
      (ht : t = ⟨m, w.engine.childrenOf h w.state m, force, w₁⟩)
      (hok : (t.outcome h tick).1 = .ok b)
      (hrest : Visits h tick force ms (t.after h tick) us err w') :
      Visits h tick force (m :: ms) w (ts ++ t :: us) err w'

namespace Visits

variable {force : Bool} {ms : List Module} {w w' : Walk σ τ} {ts : List (Turn σ τ)}
  {err : Option ReloadError}

theorem replays (hv : Visits h tick force ms w ts err w') : Replays h tick w ts w' := by
  induction hv with
  | done ns => exact .nil (Walk.asks_noted ns _)
  | skip _ _ ih => exact ih
  | broken ns _ _ ih => exact .of_asks (Walk.asks_entering h ns _ _) ih
  | fail ns _ _ ht _ ih =>
    subst ht
    exact .of_asks (Walk.asks_entering h ns _ _) (ih.append (.cons (.refl _) (.nil (.refl _))))
  | turn ns _ _ ht _ _ ih₁ ih₂ =>
    subst ht
    exact .of_asks (Walk.asks_entering h ns _ _) (ih₁.append (.cons (.refl _) ih₂))

/-! ## Names -/

theorem tour (hv : Visits h tick force ms w ts err w') :
    Tour h (fun m r ↦ r.Settles h tick m) ms w (ts.map Turn.module) err.isSome w' := by
  induction hv with
  | done ns => exact .done ns
  | skip hseen _ ih => exact .skip hseen ih
  | broken ns hnew _ ih => exact .broken ns hnew ih
  | fail ns hnew _ ht hfail ih =>
    subst ht
    rw [List.map_append]
    exact .stop ns hnew ih (Run.settles_turn (Turn.isFailure_of_error hfail))
  | turn ns hnew _ ht hok _ ih₁ ih₂ =>
    subst ht
    rw [List.map_append]
    exact .turn ns hnew ih₁ (Run.settles_turn (Turn.isFailure_of_ok hok)) ih₂

theorem visited_subset (hv : Visits h tick force ms w ts err w') : w.visited ⊆ w'.visited :=
  hv.tour.visited_subset

/-- **What comes before a turn.** The visits of the dependencies of its module, from a walk that had
not come to the module. Nothing that was visited is forgotten on the way. -/
theorem exists_below (hv : Visits h tick force ms w ts err w') {t : Turn σ τ} (ht : t ∈ ts) :
    ∃ (v : Walk σ τ) (ns : List Notice) (us : List (Turn σ τ)), t.module.name ∉ v.visited ∧
      t.children = v.engine.childrenOf h v.state t.module ∧
      Visits h tick false t.children (v.entering h ns t.module) us none t.before ∧
      w.visited ⊆ v.visited ∧ t.before.visited ⊆ w'.visited := by
  induction hv with
  | done => simp at ht
  | skip _ _ ih => exact ih ht
  | broken ns _ _ ih =>
    obtain ⟨v, ns', us, hnew, hchildren, hbelow, hsub, hend⟩ := ih ht
    refine ⟨v, ns', us, hnew, hchildren, hbelow, ?_, hend⟩
    intro n hn
    exact hsub (List.mem_cons_of_mem _ hn)
  | @fail _ m _ w w₁ ts s _ ns hnew hbelow hs _ ih =>
    subst hs
    rcases List.mem_append.mp ht with hbefore | hlast
    · obtain ⟨v, ns', us, hnew', hchildren, hbelow', hsub, hend⟩ := ih hbefore
      refine ⟨v, ns', us, hnew', hchildren, hbelow', ?_, hend⟩
      intro n hn
      exact hsub (List.mem_cons_of_mem _ hn)
    · obtain rfl := List.mem_singleton.mp hlast
      exact ⟨w, ns, ts, hnew, rfl, hbelow, List.Subset.refl _, List.Subset.refl _⟩
  | @turn _ m _ w w₁ _ ts us s _ _ ns hnew hbelow hs _ hrest ih₁ ih₂ =>
    subst hs
    rcases List.mem_append.mp ht with hbefore | hlater
    · obtain ⟨v, ns', us', hnew', hchildren, hbelow', hsub, hend⟩ := ih₁ hbefore
      refine ⟨v, ns', us', hnew', hchildren, hbelow', ?_, ?_⟩
      · intro n hn
        exact hsub (List.mem_cons_of_mem _ hn)
      · intro n hn
        exact hrest.visited_subset (hend hn)
    · rcases List.mem_cons.mp hlater with rfl | hafter
      · exact ⟨w, ns, ts, hnew, rfl, hbelow, List.Subset.refl _, hrest.visited_subset⟩
      · obtain ⟨v, ns', us', hnew', hchildren, hbelow', hsub, hend⟩ := ih₂ hafter
        refine ⟨v, ns', us', hnew', hchildren, hbelow', ?_, hend⟩
        intro n hn
        exact hsub (hbelow.visited_subset (List.mem_cons_of_mem _ hn))

theorem self_visited (hv : Visits h tick force ms w ts err w') {t : Turn σ τ} (ht : t ∈ ts) :
    t.module.name ∈ t.before.visited := by
  obtain ⟨v, ns, us, -, -, hbelow, -, -⟩ := hv.exists_below ht
  exact hbelow.visited_subset List.mem_cons_self

theorem mem_visited (hv : Visits h tick force ms w ts err w') {t : Turn σ τ} (ht : t ∈ ts) :
    t.module.name ∉ w.visited ∧ t.module.name ∈ w'.visited :=
  hv.tour.mem_visited (List.mem_map_of_mem ht)

theorem nodup (hv : Visits h tick force ms w ts err w') :
    (ts.map fun t ↦ t.module.name).Nodup := by
  have hnodup := hv.tour.nodup
  rw [List.map_map] at hnodup
  exact hnodup

theorem mem_visited_of_mem (hv : Visits h tick force ms w ts none w') {m : Module} (hm : m ∈ ms) :
    m.name ∈ w'.visited :=
  hv.tour.mem_visited_of_mem hm

theorem mem_visited_iff (hv : Visits h tick force ms w ts none w') {n : String} :
    n ∈ w'.visited ↔ n ∈ w.visited ∨ ∃ t ∈ ts, t.module.name = n := by
  rw [hv.tour.mem_visited_iff]
  refine or_congr_right ⟨?_, ?_⟩
  · rintro ⟨x, hx, hname⟩
    obtain ⟨t, ht, rfl⟩ := List.mem_map.mp hx
    exact ⟨t, ht, hname⟩
  · rintro ⟨t, ht, hname⟩
    exact ⟨t.module, List.mem_map_of_mem ht, hname⟩

/-- If nothing was visited before, then what has been visited has had its turn. -/
theorem exists_turn_of_visited (hv : Visits h tick force ms w ts none w') (hstart : w.visited = [])
    {n : String} (hn : n ∈ w'.visited) : ∃ t ∈ ts, t.module.name = n := by
  rcases hv.mem_visited_iff.mp hn with hold | hturn
  · rw [hstart] at hold
    exact absurd hold List.not_mem_nil
  · exact hturn

/-- When the turn of a module comes, all its dependencies have been visited. -/
theorem children_visited (hv : Visits h tick force ms w ts err w') {t : Turn σ τ} (ht : t ∈ ts)
    {c : Module} (hc : c ∈ t.children) :
    c.name ∈ t.before.visited ∧ t.before.visited ⊆ w'.visited := by
  obtain ⟨v, ns, us, -, -, hbelow, -, hend⟩ := hv.exists_below ht
  exact ⟨hbelow.mem_visited_of_mem hc, hend⟩

/-! ## What visits leave alone -/

theorem times_of_visited (hv : Visits h tick force ms w ts err w') {n : String}
    (hn : n ∈ w.visited) : w'.engine.times.get? n = w.engine.times.get? n :=
  hv.replays.times_of_forall fun _ ht hname ↦ absurd (hname ▸ hn) (hv.mem_visited ht).1

theorem times_of_not_visited (hv : Visits h tick force ms w ts err w') {n : String}
    (hn : n ∉ w'.visited) : w'.engine.times.get? n = w.engine.times.get? n :=
  hv.replays.times_of_forall fun _ ht hname ↦ absurd (hv.mem_visited ht).2 (hname ▸ hn)

theorem dependencies_of_visited (hv : Visits h tick force ms w ts err w') {n : String}
    (hn : n ∈ w.visited) :
    w'.engine.dependencies.get? n = w.engine.dependencies.get? n := by
  induction hv with
  | done => rfl
  | skip _ _ ih => exact ih hn
  | @broken _ m _ _ _ _ _ ns hnew _ ih =>
    have hne : n ≠ m.name := fun hname ↦ hnew (hname ▸ hn)
    rw [ih (List.mem_cons_of_mem _ hn), Walk.entering_dependencies_get?, if_neg hne]
  | @fail _ m _ _ _ _ _ _ ns hnew _ hs _ ih =>
    subst hs
    have hne : n ≠ m.name := fun hname ↦ hnew (hname ▸ hn)
    rw [Turn.after_dependencies_get?, if_neg fun hc ↦ hne hc.2, ih (List.mem_cons_of_mem _ hn),
      Walk.entering_dependencies_get?, if_neg hne]
  | @turn _ m _ _ _ _ _ _ _ _ _ ns hnew hbelow hs _ _ ih₁ ih₂ =>
    subst hs
    have hne : n ≠ m.name := fun hname ↦ hnew (hname ▸ hn)
    rw [ih₂ (hbelow.visited_subset (List.mem_cons_of_mem _ hn)), Turn.after_dependencies_get?,
      if_neg fun hc ↦ hne hc.2, ih₁ (List.mem_cons_of_mem _ hn),
      Walk.entering_dependencies_get?, if_neg hne]

theorem dependencies_before (hv : Visits h tick force ms w ts err w') {t : Turn σ τ} (ht : t ∈ ts) :
    t.before.engine.dependencies.get? t.module.name = some t.children := by
  obtain ⟨v, ns, us, -, hchildren, hbelow, -, -⟩ := hv.exists_below ht
  rw [hbelow.dependencies_of_visited List.mem_cons_self, Walk.entering_dependencies_get?,
    if_pos rfl, hchildren]

/-- A module that has had its turn is left with the dependencies found, or with none remembered if
its reinitialization was tried. -/
theorem dependencies_of_mem (hv : Visits h tick force ms w ts err w') {t : Turn σ τ} (ht : t ∈ ts) :
    w'.engine.dependencies.get? t.module.name =
      if t.isIdle h.files = true then some t.children else none := by
  have hturn : (t.after h tick).engine.dependencies.get? t.module.name =
      if t.isIdle h.files = true then some t.children else none := by
    rw [Turn.after_dependencies_get?]
    cases t.isIdle h.files <;> simp [hv.dependencies_before ht]
  -- No later turn is about the module, so what its own turn leaves stays.
  induction hv with
  | done => simp at ht
  | skip _ _ ih => exact ih ht
  | broken ns _ _ ih => exact ih ht
  | @fail _ m _ w w₁ ts s _ ns hnew hbelow hs _ ih =>
    rcases List.mem_append.mp ht with hbefore | hlast
    · have hne : t.module.name ≠ s.module.name := by
        rw [hs]
        intro hname
        exact (hbelow.mem_visited hbefore).1 (hname ▸ List.mem_cons_self)
      rw [Turn.after_dependencies_get?, if_neg fun hc ↦ hne hc.2, ← ih hbefore, hs]
    · obtain rfl := List.mem_singleton.mp hlast
      exact hturn
  | @turn _ m _ w w₁ _ ts us s _ _ ns hnew hbelow hs _ hrest ih₁ ih₂ =>
    have hvisited : (s.after h tick).visited = w₁.visited := by rw [hs]; rfl
    rcases List.mem_append.mp ht with hbefore | hlater
    · have hne : t.module.name ≠ s.module.name := by
        rw [hs]
        intro hname
        exact (hbelow.mem_visited hbefore).1 (hname ▸ List.mem_cons_self)
      rw [hrest.dependencies_of_visited (hvisited ▸ (hbelow.mem_visited hbefore).2),
        Turn.after_dependencies_get?, if_neg fun hc ↦ hne hc.2, ← ih₁ hbefore, hs]
    · rcases List.mem_cons.mp hlater with rfl | hafter
      · have hmem : t.module.name ∈ w₁.visited := by
          rw [hs]
          exact hbelow.visited_subset List.mem_cons_self
        rw [hrest.dependencies_of_visited (hvisited ▸ hmem)]
        exact hturn
      · exact ih₂ hafter

/-! ## Invariants and order -/

/-- **What holds all along.** Let `I` hold of the walk and `P` of the modules to be visited. If
notices keep `I`, if coming to a module of `P` keeps `I`, shows its dependencies as `Q` says and
finds only modules of `P` among them, and if each turn keeps `I`, then `I` holds before each turn
and at the end, and `P` and `Q` hold of each turn. -/
theorem invariant {I : Walk σ τ → Prop} {P : Module → Prop} {Q : Module → List Module → Prop}
    (hv : Visits h tick force ms w ts err w') (hw : I w) (hms : ∀ m ∈ ms, P m)
    (hsay : ∀ v ns, I v → I (v.noted ns))
    (hdown : ∀ v ns m, I v → P m → m.name ∉ v.visited →
      I (v.entering h ns m) ∧ Q m (v.engine.childrenOf h v.state m) ∧
        ∀ c ∈ v.engine.childrenOf h v.state m, P c)
    (hturn : ∀ t ∈ ts, I t.before → P t.module → Q t.module t.children → I (t.after h tick)) :
    I w' ∧ ∀ t ∈ ts, I t.before ∧ P t.module ∧ Q t.module t.children := by
  induction hv with
  | done ns => exact ⟨hsay _ _ hw, by simp⟩
  | skip _ _ ih => exact ih hw (fun m hm ↦ hms m (List.mem_cons_of_mem _ hm)) hturn
  | broken ns hnew _ ih =>
    obtain ⟨hent, -, hchildren⟩ := hdown _ ns _ hw (hms _ List.mem_cons_self) hnew
    exact ih hent hchildren hturn
  | @fail _ m _ _ w₁ ts t _ ns hnew _ ht _ ih =>
    have hm : P m := hms _ List.mem_cons_self
    obtain ⟨hent, hlist, hchildren⟩ := hdown _ ns _ hw hm hnew
    obtain ⟨hbelow, hts⟩ := ih hent hchildren fun s hs ↦ hturn s (List.mem_append_left _ hs)
    have hlast : I t.before ∧ P t.module ∧ Q t.module t.children := by
      rw [ht]
      exact ⟨hbelow, hm, hlist⟩
    refine ⟨hturn t (by simp) hlast.1 hlast.2.1 hlast.2.2, ?_⟩
    rw [List.forall_mem_append, List.forall_mem_singleton]
    exact ⟨hts, hlast⟩
  | @turn _ m _ _ w₁ _ ts us t _ _ ns hnew _ ht _ _ ih₁ ih₂ =>
    have hm : P m := hms _ List.mem_cons_self
    obtain ⟨hent, hlist, hchildren⟩ := hdown _ ns _ hw hm hnew
    obtain ⟨hbelow, hts⟩ := ih₁ hent hchildren fun s hs ↦ hturn s (List.mem_append_left _ hs)
    have hmid : I t.before ∧ P t.module ∧ Q t.module t.children := by
      rw [ht]
      exact ⟨hbelow, hm, hlist⟩
    obtain ⟨hend, hus⟩ := ih₂ (hturn t (by simp) hmid.1 hmid.2.1 hmid.2.2)
      (fun n hn ↦ hms n (List.mem_cons_of_mem _ hn)) fun s hs ↦ hturn s (by simp [hs])
    refine ⟨hend, ?_⟩
    rw [List.forall_mem_append, List.forall_mem_cons]
    exact ⟨hts, hmid, hus⟩

theorem of_force (hv : Visits h tick force ms w ts err w') {t : Turn σ τ} (ht : t ∈ ts)
    (hforce : t.force = true) : force = true ∧ t.module ∈ ms := by
  induction hv with
  | done => simp at ht
  | skip _ _ ih => exact ⟨(ih ht).1, List.mem_cons_of_mem _ (ih ht).2⟩
  | broken ns _ _ ih => exact absurd (ih ht).1 (by decide)
  | fail ns hnew hbelow hs _ ih =>
    subst hs
    rcases List.mem_append.mp ht with hbefore | hlast
    · exact absurd (ih hbefore).1 (by decide)
    · obtain rfl := List.mem_singleton.mp hlast
      exact ⟨hforce, List.mem_cons_self⟩
  | turn ns hnew hbelow hs _ hrest ih₁ ih₂ =>
    subst hs
    rcases List.mem_append.mp ht with hbefore | hlater
    · exact absurd (ih₁ hbefore).1 (by decide)
    · rcases List.mem_cons.mp hlater with rfl | hafter
      · exact ⟨hforce, List.mem_cons_self⟩
      · exact ⟨(ih₂ hafter).1, List.mem_cons_of_mem _ (ih₂ hafter).2⟩

theorem force_of_module (hv : Visits h tick force ms w ts err w') {m : Module} (hms : ms = [m])
    {t : Turn σ τ} (ht : t ∈ ts) (hname : t.module.name = m.name) : t.force = force := by
  subst hms
  cases hv with
  | skip _ hrest => cases hrest; simp at ht
  | broken ns hnew hbelow => exact absurd (hname ▸ List.mem_cons_self) (hbelow.mem_visited ht).1
  | fail ns hnew hbelow hs _ =>
    subst hs
    rcases List.mem_append.mp ht with hbefore | hlast
    · exact absurd (hname ▸ List.mem_cons_self) (hbelow.mem_visited hbefore).1
    · rw [List.mem_singleton.mp hlast]
  | turn ns hnew hbelow hs _ hrest =>
    subst hs
    cases hrest
    rcases List.mem_append.mp ht with hbefore | hlast
    · exact absurd (hname ▸ List.mem_cons_self) (hbelow.mem_visited hbefore).1
    · rw [List.mem_singleton.mp hlast]

/-- An error is that of a turn in which the host was not left alone, and which is no reload. -/
theorem exists_of_error {e : ReloadError} (hv : Visits h tick force ms w ts (some e) w') :
    ∃ t ∈ ts, (t.outcome h tick).1 = .error e := by
  generalize hsome : some e = o at hv
  induction hv with
  | done => simp at hsome
  | skip _ _ ih => exact ih hsome
  | broken ns _ _ ih => exact ih hsome
  | @fail _ _ _ _ _ _ t _ ns hnew hbelow hs hfail _ =>
    obtain rfl := Option.some.inj hsome
    exact ⟨t, by simp, hfail⟩
  | turn ns hnew hbelow hs _ hrest _ ih₂ =>
    obtain ⟨t, ht, hfail⟩ := ih₂ hsome
    exact ⟨t, by simp [ht], hfail⟩

/-- Without an error, each turn that does not leave the host alone is a reload. -/
theorem isReload_of_not_isIdle (hv : Visits h tick force ms w ts none w') {t : Turn σ τ}
    (ht : t ∈ ts) (hidle : t.isIdle h.files = false) : t.isReload h tick = true := by
  generalize hnone : none = o at hv
  -- A turn that came to a result, and was not idle, came to a reload.
  have hresult {s : Turn σ τ} {b : Bool} (ho : (s.outcome h tick).1 = .ok b)
      (hs : s.isIdle h.files = false) : s.isReload h tick = true := by
    rw [Turn.isReload_of_outcome ho]
    cases b with
    | true => rfl
    | false => rw [Turn.outcome_eq_ok_false_iff, hs] at ho; exact absurd ho (by decide)
  induction hv with
  | done => simp at ht
  | skip _ _ ih => exact ih ht hnone
  | broken => simp at hnone
  | fail => simp at hnone
  | turn ns hnew hbelow hs hok hrest ih₁ ih₂ =>
    rcases List.mem_append.mp ht with hbefore | hlater
    · exact ih₁ hbefore rfl
    · rcases List.mem_cons.mp hlater with rfl | hafter
      · exact hresult hok hidle
      · exact ih₂ hafter hnone

variable {E : Module → Module → Prop}

/-- Every module that has a turn is reached from the list along dependencies. -/
theorem reached (hv : Visits h tick force ms w ts none w')
    (hE : ∀ t ∈ ts, ∀ c ∈ t.children, E t.module c) {t : Turn σ τ} (ht : t ∈ ts) :
    ∃ m ∈ ms, Relation.ReflTransGen E m t.module := by
  generalize hnone : none = o at hv
  induction hv with
  | done => simp at ht
  | skip _ _ ih =>
    obtain ⟨m, hm, hpath⟩ := ih hE ht hnone
    exact ⟨m, List.mem_cons_of_mem _ hm, hpath⟩
  | broken => simp at hnone
  | fail => simp at hnone
  | @turn _ m _ _ w₁ _ ts us s _ _ ns hnew hbelow hs _ _ ih₁ ih₂ =>
    have hmodule : s.module = m := by rw [hs]
    rcases List.mem_append.mp ht with hbefore | hlater
    · obtain ⟨c, hc, hpath⟩ := ih₁ (fun u hu ↦ hE u (List.mem_append_left _ hu)) hbefore rfl
      have hedge : E m c := hmodule ▸ hE s (by simp) c (by rw [hs]; exact hc)
      exact ⟨m, List.mem_cons_self, .head hedge hpath⟩
    · rcases List.mem_cons.mp hlater with rfl | hafter
      · exact ⟨m, List.mem_cons_self, hmodule ▸ .refl⟩
      · obtain ⟨n, hn, hpath⟩ := ih₂ (fun u hu ↦ hE u (by simp [hu])) hafter hnone
        exact ⟨n, List.mem_cons_of_mem _ hn, hpath⟩

/-- **Dependencies come first, except on a cycle.** If the turn of a dependency does not come before
that of the module, then the dependency reaches the module. -/
theorem order (hv : Visits h tick force ms w ts err w')
    (hE : ∀ t ∈ ts, ∀ c ∈ t.children, E t.module c) :
    ts.Pairwise fun t s ↦ ∀ c ∈ t.children, c.name = s.module.name →
      Relation.ReflTransGen E s.module t.module := by
  induction hv with
  | done => exact .nil
  | skip _ _ ih => exact ih hE
  | broken ns _ _ ih => exact ih hE
  | @fail _ m _ _ w₁ ts s _ ns hnew hbelow hs _ ih =>
    have hE₁ : ∀ t ∈ ts, ∀ c ∈ t.children, E t.module c :=
      fun t ht ↦ hE t (List.mem_append_left _ ht)
    rw [List.pairwise_append]
    refine ⟨ih hE₁, List.pairwise_singleton _ _, fun t ht u hu c _ _ ↦ ?_⟩
    obtain rfl := List.mem_singleton.mp hu
    obtain ⟨d, hd, hpath⟩ := hbelow.reached hE₁ ht
    refine .head (hE u (by simp) d ?_) hpath
    rw [hs]
    exact hd
  | @turn _ m _ _ w₁ _ ts us s _ _ ns hnew hbelow hs _ hrest ih₁ ih₂ =>
    have hE₁ : ∀ t ∈ ts, ∀ c ∈ t.children, E t.module c :=
      fun t ht ↦ hE t (List.mem_append_left _ ht)
    -- A dependency that was visited by the end of the turn has no turn later on.
    have hlate {n : String} (hn : n ∈ w₁.visited) : ∀ u ∈ us, n ≠ u.module.name := by
      rintro u hu rfl
      refine (hrest.mem_visited hu).1 ?_
      rw [Turn.after_visited, hs]
      exact hn
    rw [List.pairwise_append, List.pairwise_cons]
    refine ⟨ih₁ hE₁, ⟨fun u hu c hc hname ↦ ?_, ih₂ fun u hu ↦ hE u (by simp [hu])⟩,
      fun t ht u hu c hc hname ↦ ?_⟩
    · rw [hs] at hc
      exact absurd hname (hlate (hbelow.mem_visited_of_mem hc) u hu)
    · rcases List.mem_cons.mp hu with rfl | hu
      · obtain ⟨d, hd, hpath⟩ := hbelow.reached hE₁ ht
        refine .head (hE u (by simp) d ?_) hpath
        rw [hs]
        exact hd
      · obtain ⟨hvisited, hsub⟩ := hbelow.children_visited ht hc
        exact absurd hname (hlate (hsub hvisited) u hu)

end Visits

end ModuleReload
