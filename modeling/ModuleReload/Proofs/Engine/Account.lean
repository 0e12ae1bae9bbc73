import ModuleReload.Proofs.Engine.Aftermath

/-!
# What the account of a call tells

The account of a call tells for each module that the call has come to which dependencies it found
(`Event.findings`), and that is the only thing that decides where the call goes next. So a call may
be described by the lists in its account, whatever the host does in between (`Event.Finds`): lists
of one module agree, since no name is asked for twice (`Visits.findings_inj`), and the turns of the
call go by them. If the reload of one module does not change what another one declares, the lists
are those that the modules had at the start (`Tour.finds`).

It also tells whether the call came to its end: it did exactly if no failure is in the account
(`Visits.err_eq_none_iff`). Then every module that is asked for has its turn, and with one handle of
each name, the modules that have a turn are those reached along the lists (`Visits.closed_turns`).
-/

namespace ModuleReload

variable {σ τ : Type} {h : Host σ τ} {tick : Tick}

/-! ## Handles at hand -/

namespace Engine.Holds

variable {m a : Module}

theorem forall_mem_singleton {e : Engine} : ∀ a ∈ [m], e.Holds h m a :=
  List.forall_mem_singleton.mpr (.inl rfl)

theorem of_entering {v : Walk σ τ} {ns : List Notice} {n : Module}
    (ha : (v.entering h ns n).engine.Holds h m a) : v.engine.Holds h m a := by
  rcases ha with rfl | ha | ⟨k, children, hk, ha⟩
  · exact .inl rfl
  · exact .inr (.inl ha)
  rw [Walk.entering_dependencies_get?] at hk
  split at hk
  · obtain rfl := Option.some.inj hk
    exact .of_mem_childrenOf ha
  · exact .inr (.inr ⟨k, children, hk, ha⟩)

theorem of_turn {T : Module → Run σ τ → Bool → Run σ τ → Prop} (hT : IsTurn h T) {n : Module}
    {r r' : Run σ τ} {ended : Bool} (hturn : T n r ended r') (ha : r'.engine.Holds h m a) :
    r.engine.Holds h m a := by
  rcases ha with rfl | ha | ⟨k, children, hk, ha⟩
  · exact .inl rfl
  · exact .inr (.inl ha)
  · exact .inr (.inr ⟨k, children, hT.remembered hturn hk, ha⟩)

theorem of_after {t : Turn σ τ} (ha : (t.after h tick).engine.Holds h m a) :
    t.before.engine.Holds h m a :=
  of_turn (Run.isTurn_settles h tick) (Run.settles_turn rfl) ha

end Engine.Holds

/-! ## Lists in the account -/

theorem Walk.Tells.opening (e : Engine) (state : σ) :
    (Walk.opening (.start e state : Run σ τ)).Tells where
  visited := by simp [Walk.opening, Run.start, Run.tick, Event.findings]
  nodup := by simp [Walk.opening, Run.start, Run.tick, Event.findings]

namespace Visits

variable {e : Engine} {state : σ} {force : Bool} {ms : List Module} {m : Module} {w w' : Walk σ τ}
  {ts : List (Turn σ τ)} {err : Option ReloadError} {K : Module → List Module}

theorem tells (hv : Visits h tick force ms w ts err w') (hw : w.Tells) : w'.Tells :=
  hv.tour.tells (Run.isTurn_settles h tick) hw

theorem mem_findings (hv : Visits h tick force ms w ts err w') {t : Turn σ τ} (ht : t ∈ ts) :
    (t.module, t.children) ∈ Event.findings w'.events := by
  obtain ⟨v, ns, us, -, hchildren, hbelow, -, -⟩ := hv.exists_below ht
  obtain ⟨es, hes⟩ := hbelow.replays.exists_events
  obtain ⟨pre, post, rfl⟩ := List.append_of_mem ht
  obtain ⟨fs, hfs⟩ := hv.replays.exists_events_of_turn
  rw [hfs, hes]
  simp [Walk.findings_entering, hchildren]

theorem children_eq (hv : Visits h tick force ms w ts err w') (hK : Event.Finds K w'.events)
    {t : Turn σ τ} (ht : t ∈ ts) : t.children = K t.module :=
  hK _ _ (Event.mem_findings.mp (hv.mem_findings ht))

theorem findings_inj (hv : Visits h tick force ms w ts err w') (hw : w.Tells)
    {p q : Module × List Module} (hp : p ∈ Event.findings w'.events)
    (hq : q ∈ Event.findings w'.events) (hname : p.1.name = q.1.name) : p = q :=
  List.inj_on_of_nodup_map (hv.tells hw).nodup hp hq hname

theorem eq_of_asked (hv : Visits h tick force ms w ts err w') (hw : w.Tells) {x y : Module}
    {children others : List Module} (hx : .asked x children ∈ w'.events)
    (hy : .asked y others ∈ w'.events) (hname : x.name = y.name) : x = y ∧ children = others :=
  Prod.mk.inj (hv.findings_inj hw (Event.mem_findings.mpr hx) (Event.mem_findings.mpr hy) hname)

/-- A module that was asked for and whose source was looked at had its turn. -/
theorem exists_turn_of_looked (hv : Visits h tick force ms w ts err w') (hw : w.Tells)
    (hlooks : Event.looks w.events = []) {x : Module} {children : List Module}
    (hasked : .asked x children ∈ w'.events) (hlooked : .checked x ∈ w'.events) :
    ∃ t ∈ ts, t.module = x ∧ t.children = children := by
  rw [← Event.mem_looks, hv.replays.looks_eq, hlooks, List.nil_append] at hlooked
  obtain ⟨t, ht, rfl⟩ := List.mem_map.mp hlooked
  have heq := hv.findings_inj hw (hv.mem_findings ht) (Event.mem_findings.mpr hasked) rfl
  exact ⟨t, ht, rfl, (Prod.mk.inj heq).2⟩

/-- In a call that comes to its end, a module that is asked for has its turn. -/
theorem exists_turn_of_asked (hv : Visits h tick force ms w ts none w') (hw : w.Tells)
    (hstart : w.visited = []) {x : Module} {children : List Module}
    (hasked : .asked x children ∈ w'.events) : ∃ t ∈ ts, t.module = x ∧ t.children = children := by
  have hfound := Event.mem_findings.mpr hasked
  obtain ⟨t, ht, hname⟩ := hv.exists_turn_of_visited hstart ((hv.tells hw).visited _ hfound)
  obtain ⟨rfl, rfl⟩ := Prod.mk.inj (hv.findings_inj hw (hv.mem_findings ht) hfound hname)
  exact ⟨t, ht, rfl, rfl⟩

/-! ## Reloads and failures in the account -/

theorem mem_reloads (hv : Visits h tick force ms (Walk.opening (.start e state)) ts err w')
    {x : Module} : x ∈ Event.reloads w'.events ↔
      ∃ t ∈ ts, t.isReload h tick = true ∧ t.module = x := by
  rw [hv.reloads_eq]
  simp [and_assoc]

/-- The module of a turn is among those that the call has reloaded exactly if the turn reloads
it. -/
theorem mem_reloads_iff_isReload
    (hv : Visits h tick force ms (Walk.opening (.start e state)) ts err w') {t : Turn σ τ}
    (ht : t ∈ ts) : t.module ∈ Event.reloads w'.events ↔ t.isReload h tick = true := by
  rw [hv.mem_reloads]
  constructor
  · rintro ⟨s, hs, hreload, hmodule⟩
    obtain rfl := List.inj_on_of_nodup_map hv.nodup hs ht (congrArg Module.name hmodule)
    exact hreload
  · intro hreload
    exact ⟨t, ht, hreload, rfl⟩

/-- The sources that a call has looked at are those of the modules that have had their turns. -/
theorem checked_iff (hv : Visits h tick force ms (Walk.opening (.start e state)) ts err w')
    {x : Module} : .checked x ∈ w'.events ↔ ∃ t ∈ ts, t.module = x := by
  rw [← Event.mem_looks, hv.looks_eq, List.mem_map]

theorem mem_attempts (hv : Visits h tick force ms (Walk.opening (.start e state)) ts err w')
    {x : Module} : x ∈ Event.attempts w'.events ↔
      ∃ t ∈ ts, t.isIdle h.files = false ∧ t.module = x := by
  rw [hv.attempts_eq]
  simp [and_assoc]

theorem mem_attempts_iff_isIdle
    (hv : Visits h tick force ms (Walk.opening (.start e state)) ts err w') {t : Turn σ τ}
    (ht : t ∈ ts) : t.module ∈ Event.attempts w'.events ↔ t.isIdle h.files = false := by
  rw [hv.mem_attempts]
  constructor
  · rintro ⟨s, hs, hbusy, hmodule⟩
    obtain rfl := List.inj_on_of_nodup_map hv.nodup hs ht (congrArg Module.name hmodule)
    exact hbusy
  · intro hbusy
    exact ⟨t, ht, hbusy, rfl⟩

/-- Without an error no turn has failed: one that does not leave the host alone is a reload. -/
theorem isFailure_eq_false (hv : Visits h tick force ms w ts none w') {t : Turn σ τ} (ht : t ∈ ts) :
    t.isFailure h tick = false := by
  cases hidle : t.isIdle h.files with
  | true => exact Turn.isFailure_of_ok ((t.outcome_eq_ok_false_iff h tick).mpr hidle)
  | false =>
    have hreload := hv.isReload_of_not_isIdle ht hidle
    rw [Turn.isReload] at hreload
    rw [Turn.isFailure]
    split at hreload <;> simp_all

theorem err_eq_none_iff
    (hv : Visits h tick force ms (Walk.opening (.start e state)) ts err w') :
    err = none ↔ Event.failures w'.events = [] := by
  have hstart : Event.failures (Walk.opening (.start e state : Run σ τ)).events = [] := rfl
  rw [hv.replays.failures_eq, hstart, List.nil_append, List.map_eq_nil_iff,
    List.filter_eq_nil_iff]
  constructor
  · rintro rfl t ht
    simp [hv.isFailure_eq_false ht]
  · intro hnone
    cases err with
    | none => rfl
    | some e =>
      obtain ⟨t, ht, hfail⟩ := hv.exists_of_error
      exact absurd (Turn.isFailure_of_error hfail) (hnone t ht)

/-! ## Where a call goes -/

/-- A call meets only handles that were at hand when it began, and brings no new ones. -/
theorem holds_all (hv : Visits h tick force ms w ts err w') (hms : ∀ a ∈ ms, w.engine.Holds h m a) :
    (∀ a, w'.engine.Holds h m a → w.engine.Holds h m a) ∧
      ∀ t ∈ ts, w.engine.Holds h m t.module ∧ ∀ c ∈ t.children, w.engine.Holds h m c := by
  have hall := hv.invariant (P := w.engine.Holds h m)
    (I := fun v ↦ ∀ a, v.engine.Holds h m a → w.engine.Holds h m a)
    (Q := fun _ children ↦ ∀ c ∈ children, w.engine.Holds h m c) (fun _ ha ↦ ha) hms
    (fun _ _ hI ↦ hI) (fun v ns n hI hn _ ↦ ?_) fun s _ hI _ _ a ha ↦ hI a ha.of_after
  · exact ⟨hall.1, fun t ht ↦ (hall.2 t ht).2⟩
  have hchildren : ∀ c ∈ v.engine.childrenOf h v.state n, w.engine.Holds h m c :=
    fun c hc ↦ hI c (.of_mem_childrenOf hc)
  exact ⟨fun a ha ↦ hI a ha.of_entering, hchildren, hchildren⟩

theorem holds (hv : Visits h tick force ms w ts err w') (hms : ∀ a ∈ ms, w.engine.Holds h m a)
    {t : Turn σ τ} (ht : t ∈ ts) :
    w.engine.Holds h m t.module ∧ ∀ c ∈ t.children, w.engine.Holds h m c :=
  (hv.holds_all hms).2 t ht

/-- With one handle of each name, a call that comes to its end goes where the lists lead: the
modules that have a turn are closed under them, and the module of the call is among them. -/
theorem closed_turns (hone : w.engine.OneHandle h m)
    (hv : Visits h tick force [m] w ts none w') (hstart : w.visited = [])
    (hts : ∀ t ∈ ts, t.children = K t.module) :
    Module.Closed (fun x ↦ ∃ t ∈ ts, t.module = x) K ∧ ∃ t ∈ ts, t.module = m := by
  have hheld {t : Turn σ τ} (ht : t ∈ ts) :=
    hv.holds Engine.Holds.forall_mem_singleton ht
  have hturn {a : Module} (ha : w.engine.Holds h m a) (hvisited : a.name ∈ w'.visited) :
      ∃ t ∈ ts, t.module = a := by
    obtain ⟨t, ht, hname⟩ := hv.exists_turn_of_visited hstart hvisited
    exact ⟨t, ht, hone _ _ (hheld ht).1 ha hname⟩
  refine ⟨⟨?_, ?_⟩, hturn (.inl rfl) (hv.mem_visited_of_mem List.mem_cons_self)⟩
  · rintro _ ⟨t, ht, rfl⟩ c hc
    rw [← hts t ht] at hc
    obtain ⟨hvisited, hsub⟩ := hv.children_visited ht hc
    exact hturn ((hheld ht).2 c hc) (hsub hvisited)
  · rintro _ _ ⟨t, ht, rfl⟩ ⟨s, hs, rfl⟩ hname
    rw [List.inj_on_of_nodup_map hv.nodup ht hs hname]

end Visits

/-! ## The lists of a tour -/

/-- If each turn leaves what other modules of `P` would find, then a tour finds the dependencies
that modules have when it begins. -/
theorem Tour.finds {T : Module → Run σ τ → Bool → Run σ τ → Prop} {P : Module → Prop}
    {ms xs : List Module} {w w' : Walk σ τ} {ended : Bool} (hT : IsTurn h T)
    (ht : Tour h T ms w xs ended w') (hP : ∀ x, P x → ∀ c ∈ w.engine.childrenOf h w.state x, P c)
    (hms : ∀ m ∈ ms, P m)
    (hleaves : ∀ m r b r' x, T m r b r' → P m → P x → x.name ≠ m.name →
      r'.engine.childrenOf h r'.state x = r.engine.childrenOf h r.state x)
    (hw : Event.findings w.events = []) :
    Event.Finds (w.engine.childrenOf h w.state) w'.events := by
  set K := w.engine.childrenOf h w.state
  have hstart : Visits.Ahead h P K w ∧ ∀ p ∈ Event.findings w.events, p.2 = K p.1 :=
    ⟨fun _ _ _ ↦ rfl, by simp [hw]⟩
  have hend := (ht.invariant (P := P)
    (I := fun v ↦ Visits.Ahead h P K v ∧ ∀ p ∈ Event.findings v.events, p.2 = K p.1) hstart hms
    (fun v ns hI ↦ ⟨hI.1, ?_⟩) (fun v ns m hI hm hnew ↦ ⟨⟨hI.1.entering ns m, ?_⟩, ?_⟩)
    fun v m b r hI hm hself hturn ↦ ⟨fun x hx hxnew ↦ ?_, ?_⟩).1.2
  · intro x children hasked
    exact hend _ (Event.mem_findings.mpr hasked)
  · rw [Walk.findings_noted]
    exact hI.2
  · rw [Walk.findings_entering, List.forall_mem_append, List.forall_mem_singleton]
    exact ⟨hI.2, hI.1 m hm hnew⟩
  · rw [hI.1 m hm hnew]
    exact hP m hm
  · have hne : x.name ≠ m.name := fun heq ↦ hxnew (heq ▸ hself)
    exact (hleaves m v.toRun b r x hturn hm hx hne).trans (hI.1 x hx hxnew)
  · rw [Walk.put, hT.findings hturn]
    exact hI.2

/-- If the reload of one module does not change what another one declares, then no turn does. -/
theorem Run.Settles.childrenOf_eq {P : Module → Prop} {m x : Module} {r r' : Run σ τ}
    {ended : Bool} (hr : r.Settles h tick m ended r') (hsep : h.Separate P) (hm : P m) (hx : P x)
    (hne : x.name ≠ m.name) :
    r'.engine.childrenOf h r'.state x = r.engine.childrenOf h r.state x := by
  obtain ⟨t, rfl, rfl, rfl⟩ := hr.exists_turn
  exact Visits.childrenOf_after hsep hm hx hne

/-- If no name is asked for twice, then there are lists that an account goes by. -/
theorem Event.exists_finds {es : List (Event τ)}
    (hnodup : ((findings es).map fun p ↦ p.1.name).Nodup) : ∃ K, Finds K es := by
  classical
  let K (x : Module) : List Module :=
    if hx : ∃ children, .asked x children ∈ es then hx.choose else []
  refine ⟨K, fun x children hasked ↦ ?_⟩
  have hx : ∃ children, .asked x children ∈ es := ⟨children, hasked⟩
  have hchosen : K x = hx.choose := dif_pos hx
  have hsame :=
    List.inj_on_of_nodup_map hnodup (mem_findings.mpr hasked) (mem_findings.mpr hx.choose_spec) rfl
  rw [hchosen]
  exact (Prod.mk.inj hsame).2

/-! ## The lists of a call -/

namespace Run

variable {e : Engine} {state : σ} {m : Module} {force : Bool} {result : Except ReloadError Bool}
  {r : Run σ τ}

theorem exists_visits_of_call (hclock : e.Clocked)
    (hcall : (start e state).autoreload h m force = (result, r)) :
    ∃ ts err w', Visits h (e.times.clock + 1) force [m] (Walk.opening (.start e state)) ts err w' ∧
      answer err (Turn.anyReload h (e.times.clock + 1) ts m.name) = result ∧ w'.toRun = r := by
  obtain ⟨ts, err, w', hv, heq⟩ := exists_visits (h := h) (r := start e state) hclock m force
  obtain ⟨hresult, hrun⟩ := Prod.mk.inj (hcall.symm.trans heq)
  exact ⟨ts, err, w', hv, hresult.symm, hrun.symm⟩

theorem exists_finds (hclock : e.Clocked)
    (hcall : (start e state).autoreload h m force = (result, r)) :
    ∃ K, Event.Finds K r.events := by
  obtain ⟨ts, err, w', hv, -, rfl⟩ := exists_visits_of_call hclock hcall
  exact Event.exists_finds (hv.tells (.opening e state)).nodup

/-- If the reload of one module that is reached does not change what another one declares, a call
goes by the lists at its start. -/
theorem finds_of_separate (hclock : e.Clocked) (hone : e.OneHandle h m)
    (hcall : (start e state).autoreload h m force = (result, r))
    (hsep : h.Separate (e.Reaches h state m)) : Event.Finds (e.childrenOf h state) r.events := by
  obtain ⟨ts, err, w', hv, -, rfl⟩ := exists_visits_of_call hclock hcall
  have hclosed : Module.Closed (e.Reaches h state m) (e.childrenOf h state) := hone.closed
  have hm : e.Reaches h state m m := .refl
  exact hv.tour.finds (Run.isTurn_settles h _) hclosed.children (List.forall_mem_singleton.mpr hm)
    (fun _ _ _ _ _ hr hm hx hne ↦ hr.childrenOf_eq hsep hm hx hne) rfl

end Run

end ModuleReload
