import ModuleReload.Proofs.Engine.Tour

/-!
# The walks without their bounds

Both walks recurse on a bound, which stands for the depth to which they may go. `Unwinds` is the
walk of `autoreload` without it: the visits of modules in order with what each came to, from which
the turn of the module above them takes its flag. The walk of `isOutdated` has no more to it than a
tour.

The bounds are never used up. Each step down adds a name to those visited, and all names come from a
fixed stock (`Within`), so it is enough that the bound is as large as the part of the stock that has
not been met (`Walk.unmet`). Whatever larger bound a walk is given, it comes to the same end, and
has come to it as it would have without any (`Unwinds.exists_visit`, `Tour.exists_check`). So a call
comes to its end, on every graph (`Run.reloadEnds`, `Run.questionEnds`).
-/

namespace ModuleReload

variable {σ τ : Type} {h : Host σ τ} {tick : Tick}

/-! ## The stock of names -/

theorem Table.mem_entries_of_get? {κ α : Type} [DecidableEq κ] {t : Table κ α} {k : κ} {a : α}
    (ha : t.get? k = some a) : (k, a) ∈ t.entries := by
  obtain ⟨pre, post, hentries, -⟩ := List.lookup_eq_some_iff.mp ha
  rw [hentries]
  exact List.mem_append_right _ List.mem_cons_self

theorem Dependencies.mem_modules_of_discover {roots : OwnedRoots} {state : σ} {m c : Module}
    (hc : c ∈ (discover h roots state m).1) : c ∈ h.modules := by
  obtain ⟨n, -, hn⟩ := List.mem_filterMap.mp hc
  exact List.mem_of_find?_eq_some hn

/-- The names of all modules that are loaded or remembered are among the given ones. -/
structure Within (h : Host σ τ) (names : List String) (e : Engine) : Prop where
  loaded : ∀ m ∈ h.modules, m.name ∈ names
  remembered : ∀ n children, e.dependencies.get? n = some children →
    ∀ c ∈ children, c.name ∈ names

namespace Within

variable {names : List String} {e : Engine} {T : Module → Run σ τ → Bool → Run σ τ → Prop}

theorem childrenOf (hw : Within h names e) {state : σ} {m c : Module}
    (hc : c ∈ e.childrenOf h state m) : c.name ∈ names := by
  rw [Engine.childrenOf] at hc
  cases hm : e.dependencies.get? m.name with
  | none =>
    rw [hm] at hc
    exact hw.loaded c (Dependencies.mem_modules_of_discover hc)
  | some children =>
    rw [hm] at hc
    exact hw.remembered _ _ hm c hc

theorem entering {w : Walk σ τ} (hw : Within h names w.engine) (ns : List Notice) (m : Module) :
    Within h names (w.entering h ns m).engine where
  loaded := hw.loaded
  remembered n children hn c hc := by
    rw [Walk.entering_dependencies_get?] at hn
    split at hn
    · obtain rfl := Option.some.inj hn
      exact hw.childrenOf hc
    · exact hw.remembered n children hn c hc

theorem tour {ms xs : List Module} {w w' : Walk σ τ} {ended : Bool} (hw : Within h names w.engine)
    (hT : IsTurn h T) (ht : Tour h T ms w xs ended w') : Within h names w'.engine := by
  refine (ht.invariant (I := fun v ↦ Within h names v.engine) (P := fun _ ↦ True) hw
    (fun _ _ ↦ trivial)
    (fun _ _ hv ↦ hv) (fun v ns m hv _ _ ↦ ⟨hv.entering ns m, fun _ _ ↦ trivial⟩)
    fun v m b r hv _ _ hturn ↦ ⟨hv.loaded, fun n children hn ↦ ?_⟩).1
  exact hv.remembered n children (hT.remembered hturn hn)

end Within

namespace Walk

/-- How many entries of the stock have not been visited. -/
def unmet (names : List String) (w : Walk σ τ) : Nat :=
  (names.filter fun n ↦ !w.visited.contains n).length

theorem unmet_le {names : List String} {w w' : Walk σ τ} (hsub : w.visited ⊆ w'.visited) :
    w'.unmet names ≤ w.unmet names := by
  rw [unmet, unmet, ← List.countP_eq_length_filter, ← List.countP_eq_length_filter]
  refine List.countP_mono_left fun n _ hn ↦ ?_
  simp only [List.contains_eq_mem, Bool.not_eq_true', decide_eq_false_iff_not] at hn ⊢
  intro hmem
  exact hn (hsub hmem)

theorem unmet_entering_lt {names : List String} {w : Walk σ τ} {ns : List Notice} {m : Module}
    (hm : m.name ∈ names) (hnew : m.name ∉ w.visited) :
    (w.entering h ns m).unmet names < w.unmet names := by
  have hsub : (names.filter fun n ↦ !(w.entering h ns m).visited.contains n) =
      (names.filter fun n ↦ !w.visited.contains n).filter fun n ↦ !(n == m.name) := by
    rw [List.filter_filter]
    congr 1
    funext n
    by_cases hn : n = m.name <;> simp [hn]
  rw [unmet, unmet, hsub]
  refine List.length_filter_lt_length_iff_exists.mpr ⟨m.name, ?_, by simp⟩
  simp [hm, hnew]

/-- While a module of the stock has not been visited, there is something to be met. -/
theorem unmet_pos {names : List String} {w : Walk σ τ} {m : Module} (hm : m.name ∈ names)
    (hnew : m.name ∉ w.visited) : 0 < w.unmet names := by
  refine List.length_pos_of_mem (a := m.name) ?_
  simp [hm, hnew]

end Walk

/-! ## Reloading what is due -/

/-- What a walk answers: the error that ended it, or else a flag. -/
def answer (err : Option ReloadError) (b : Bool) : Except ReloadError Bool :=
  match err with
  | some e => .error e
  | none => .ok b

@[simp] theorem answer_none (b : Bool) : answer none b = .ok b := rfl

@[simp] theorem answer_some (e : ReloadError) (b : Bool) : answer (some e) b = .error e := rfl

theorem eq_some_of_answer {err : Option ReloadError} {b : Bool} {e : ReloadError}
    (ha : answer err b = .error e) : err = some e := by
  cases err with
  | none => simp at ha
  | some err => rw [Except.error.inj ha]

namespace Walk

/-- Whether a module is due by what the visits of its dependencies came to: whether each was
reloaded, and the time that it bears since. -/
def isDueBy (mine : Option Tick) (visits : List (Bool × Option Tick)) : Bool :=
  visits.any fun v ↦ v.1 || reloadedSince mine v.2

theorem isDueBy_cons (mine : Option Tick) (b : Bool) (time : Option Tick)
    (visits : List (Bool × Option Tick)) :
    isDueBy mine ((b, time) :: visits) = (b || reloadedSince mine time || isDueBy mine visits) :=
        rfl

/-- What is said after the visit of a dependency: that it was reloaded before, if that is what makes
the module due. -/
def remarks (m c : Module) (mine : Option Tick) (due : Bool) (w : Walk σ τ) : List Notice :=
  if due then []
  else if reloadedSince mine (w.engine.times.get? c.name) then
    [⟨"autoreload", .trace,
      "dependency " ++ c.name ++ " of " ++ m.name ++ " was previously reloaded"⟩]
  else []

/-- After a visit without error, the rest of the dependencies is gone through. -/
theorem eachChild_cons {visit : Module → Walk σ τ → Except ReloadError Bool × Walk σ τ}
    {m c : Module} {mine : Option Tick} {cs : List Module} {due b : Bool} {w w₁ : Walk σ τ}
    (hc : visit c w = (.ok b, w₁)) :
    eachChild visit m mine (c :: cs) due w =
      eachChild visit m mine cs (due || (b || reloadedSince mine (w₁.engine.times.get? c.name)))
        (w₁.noted (remarks m c mine (due || b) w₁)) := by
  rw [eachChild, hc, remarks, ← Bool.or_assoc]
  cases hdue : due || b with
  | true => simp only [hdue, if_true, noted_nil, Bool.true_or]
  | false =>
    cases hsince : reloadedSince mine (w₁.engine.times.get? c.name) with
    | true => simp only [hdue, hsince, Bool.false_eq_true, if_false, if_true, Bool.false_or]; rfl
    | false => simp only [hdue, hsince, Bool.false_eq_true, if_false, noted_nil, Bool.or_self]

end Walk

/-- The visits of modules in order, as the walk makes them: with what each of them came to, and the
error that ended them, if any. -/
inductive Unwinds (h : Host σ τ) (tick : Tick) : Bool → List Module → Walk σ τ →
    List (Bool × Option Tick) → Option ReloadError → Walk σ τ → Prop
  | done {force : Bool} {w : Walk σ τ} (ns : List Notice) :
      Unwinds h tick force [] w [] none (w.noted ns)
  | skip {force : Bool} {m : Module} {ms : List Module} {w w' : Walk σ τ}
      {vs : List (Bool × Option Tick)}
      {err : Option ReloadError} (hseen : m.name ∈ w.visited)
      (hrest : Unwinds h tick force ms w vs err w') :
      Unwinds h tick force (m :: ms) w ((false, w.engine.times.get? m.name) :: vs) err w'
  | broken {force : Bool} {m : Module} {ms : List Module} {w w' : Walk σ τ}
      {vs : List (Bool × Option Tick)}
      {e : ReloadError} (ns : List Notice) (hnew : m.name ∉ w.visited)
      (hbelow : Unwinds h tick false (w.engine.childrenOf h w.state m) (w.entering h ns m) vs
        (some e) w') :
      Unwinds h tick force (m :: ms) w [] (some e) w'
  | fail {force : Bool} {m : Module} {ms : List Module} {w w₁ : Walk σ τ}
      {vs : List (Bool × Option Tick)}
      {e : ReloadError} {r : Run σ τ} (ns : List Notice) (hnew : m.name ∉ w.visited)
      (hbelow : Unwinds h tick false (w.engine.childrenOf h w.state m)
        (w.entering h ns m) vs none w₁)
      (hfail : w₁.settle h tick (force || Walk.isDueBy (w.engine.times.get? m.name) vs) m =
        (.error e, r)) :
      Unwinds h tick force (m :: ms) w [] (some e) (w₁.put r)
  | turn {force b : Bool} {m : Module} {ms : List Module} {w w₁ w' : Walk σ τ}
      {vs us : List (Bool × Option Tick)} {err : Option ReloadError} {r : Run σ τ}
      (ns : List Notice) (hnew : m.name ∉ w.visited)
      (hbelow : Unwinds h tick false (w.engine.childrenOf h w.state m)
        (w.entering h ns m) vs none w₁)
      (hok : w₁.settle h tick (force || Walk.isDueBy (w.engine.times.get? m.name) vs) m =
        (.ok b, r))
      (hrest : Unwinds h tick force ms (w₁.put r) us err w') :
      Unwinds h tick force (m :: ms) w ((b, r.engine.times.get? m.name) :: us) err w'

namespace Unwinds

variable {force : Bool} {ms ms' : List Module} {m : Module} {w w₁ w' : Walk σ τ}
  {vs us : List (Bool × Option Tick)} {err : Option ReloadError} {names : List String}

theorem of_noted {ns : List Notice} (hu : Unwinds h tick force ms (w.noted ns) vs err w') :
    Unwinds h tick force ms w vs err w' := by
  generalize hw : w.noted ns = v at hu
  induction hu with
  | done ns' => subst hw; rw [Walk.noted_noted]; exact .done _
  | skip hseen _ ih => subst hw; exact .skip hseen (ih rfl)
  | broken ns' hnew hbelow _ =>
    subst hw
    rw [Walk.entering_noted] at hbelow
    exact .broken _ hnew hbelow
  | fail ns' hnew hbelow hfail _ =>
    subst hw
    rw [Walk.entering_noted] at hbelow
    exact .fail _ hnew hbelow hfail
  | turn ns' hnew hbelow hok hrest _ _ =>
    subst hw
    rw [Walk.entering_noted] at hbelow
    exact .turn _ hnew hbelow hok hrest

theorem append (h₁ : Unwinds h tick force ms w vs none w₁)
    (h₂ : Unwinds h tick force ms' w₁ us err w') :
    Unwinds h tick force (ms ++ ms') w (vs ++ us) err w' := by
  generalize hnone : none = e at h₁
  induction h₁ with
  | done => exact of_noted h₂
  | skip hseen _ ih => exact .skip hseen (ih h₂ hnone)
  | broken => simp at hnone
  | fail => simp at hnone
  | turn ns hnew hbelow hok _ _ ih => exact .turn ns hnew hbelow hok (ih h₂ hnone)

/-- After an error nothing more is visited. -/
theorem exists_of_error {e : ReloadError} (hu : Unwinds h tick force ms w vs (some e) w')
    (ms' : List Module) : ∃ us, Unwinds h tick force (ms ++ ms') w us (some e) w' := by
  generalize hsome : some e = o at hu
  induction hu with
  | done => simp at hsome
  | skip hseen _ ih =>
    obtain ⟨us, hus⟩ := ih hsome
    exact ⟨_, .skip hseen hus⟩
  | broken ns hnew hbelow _ => exact ⟨_, .broken ns hnew hbelow⟩
  | fail ns hnew hbelow hfail _ => exact ⟨_, .fail ns hnew hbelow hfail⟩
  | turn ns hnew hbelow hok _ _ ih =>
    obtain ⟨us, hus⟩ := ih hsome
    exact ⟨_, .turn ns hnew hbelow hok hus⟩

theorem nil : Unwinds h tick force [] w [] none w := by
  have hdone : Unwinds h tick force [] w [] none (w.noted []) := .done []
  rwa [Walk.noted_nil] at hdone

theorem passed (hseen : m.name ∈ w.visited) :
    Unwinds h tick force [m] w [(false, w.engine.times.get? m.name)] none w :=
  .skip hseen nil

theorem eq_nil (hu : Unwinds h tick force [] w vs err w') : vs = [] := by
  cases hu
  rfl

/-- What the visit of one module came to, and the time that it bears at the end. -/
theorem exists_eq_singleton (hu : Unwinds h tick force [m] w vs none w') :
    ∃ b, vs = [(b, w'.engine.times.get? m.name)] := by
  cases hu with
  | skip _ hrest => cases hrest; exact ⟨false, rfl⟩
  | turn _ _ _ _ hrest => cases hrest; exact ⟨_, rfl⟩

theorem exists_tour (hu : Unwinds h tick force ms w vs err w') :
    ∃ xs, Tour h (fun m r ↦ r.Settles h tick m) ms w xs err.isSome w' := by
  induction hu with
  | done ns => exact ⟨[], .done ns⟩
  | skip hseen _ ih =>
    obtain ⟨xs, ht⟩ := ih
    exact ⟨xs, .skip hseen ht⟩
  | broken ns hnew _ ih =>
    obtain ⟨xs, ht⟩ := ih
    exact ⟨xs, .broken ns hnew ht⟩
  | fail ns hnew _ hfail ih =>
    obtain ⟨xs, ht⟩ := ih
    exact ⟨_, .stop ns hnew ht ⟨_, _, hfail, rfl⟩⟩
  | turn ns hnew _ hok _ ih₁ ih₂ =>
    obtain ⟨xs, hxs⟩ := ih₁
    obtain ⟨ys, hys⟩ := ih₂
    exact ⟨_, .turn ns hnew hxs ⟨_, _, hok, rfl⟩ hys⟩

/-! ### The walk -/

/-- Going through the dependencies of a module is visiting them in order, if going to each single
one is a visit. The flag at the end is what the visits came to. Here `visit` is given by its
bound. -/
theorem exists_eachChild {n : Nat}
    {visit : Nat → Module → Walk σ τ → Except ReloadError Bool × Walk σ τ} (m : Module)
    (mine : Option Tick)
    (hvisit : ∀ (c : Module) (w : Walk σ τ), c.name ∈ names → Within h names w.engine →
      w.unmet names ≤ n →
      ∃ vs err w', Unwinds h tick false [c] w vs err w' ∧
      ∀ bound, n ≤ bound → visit bound c w = (answer err (vs.any Prod.fst), w'))
    (cs : List Module) (due : Bool) (w : Walk σ τ) (hcs : ∀ c ∈ cs, c.name ∈ names)
    (hw : Within h names w.engine) (hn : w.unmet names ≤ n) :
    ∃ vs err w', Unwinds h tick false cs w vs err w' ∧ ∀ bound, n ≤ bound →
      Walk.eachChild (visit bound) m mine cs due w =
      (answer err (due || Walk.isDueBy mine vs), w') := by
  induction cs generalizing due w with
  | nil =>
    refine ⟨[], none, w, nil, fun bound _ ↦ ?_⟩
    simp [Walk.eachChild, Walk.isDueBy]
  | cons c cs ih =>
    rw [List.forall_mem_cons] at hcs
    obtain ⟨vs, err, w₁, hu, heq⟩ := hvisit c w hcs.1 hw hn
    cases err with
    | some e =>
      obtain ⟨us, hus⟩ := hu.exists_of_error cs
      refine ⟨us, some e, w₁, hus, fun bound hbound ↦ ?_⟩
      rw [Walk.eachChild, heq bound hbound]
      rfl
    | none =>
      obtain ⟨b, rfl⟩ := hu.exists_eq_singleton
      obtain ⟨xs, ht⟩ := hu.exists_tour
      have hw₁ : Within h names w₁.engine := hw.tour (Run.isTurn_settles h tick) ht
      have hn₁ : w₁.unmet names ≤ n := Nat.le_trans (Walk.unmet_le ht.visited_subset) hn
      -- What is said after the visit is said before the rest is visited.
      let ns := Walk.remarks m c mine (due || b) w₁
      obtain ⟨us, err, w', hus, heq'⟩ :=
        ih (due || (b || Walk.reloadedSince mine (w₁.engine.times.get? c.name)))
          (w₁.noted ns) hcs.2 hw₁ hn₁
      refine ⟨_, err, w', hu.append hus.of_noted, fun bound hbound ↦ ?_⟩
      have hc : visit bound c w = (.ok b, w₁) := by simpa using heq bound hbound
      rw [Walk.eachChild_cons hc, heq' bound hbound, List.singleton_append, Walk.isDueBy_cons,
        Bool.or_assoc]

theorem exists_announce (depth : Nat) (m : Module) (mine : Option Tick) (w : Walk σ τ) :
    ∃ ns, Walk.announce depth m mine w.toRun = (w.noted ns).toRun := by
  let first : Notice := ⟨"autoreload", .debug,
    "-->" ++ String.ofList (List.replicate (2 * depth) ' ') ++ " " ++ m.name⟩
  cases mine with
  | none => exact ⟨[first], rfl⟩
  | some t =>
    let second : Notice := ⟨"autoreload", .debug, m.name ++ " last reloaded at " ++ t.text⟩
    have htwo : Walk.announce depth m (some t) w.toRun =
      ((w.noted [first]).noted [second]).toRun := rfl
    exact ⟨[first] ++ [second], by rw [htwo, Walk.noted_noted]⟩

theorem settle_eq (w : Walk σ τ) (due : Bool) (m : Module) :
    (match w.isStale h m with
      | (stale, r) =>
        if due || stale then
          match r.reloadAt h tick m with
          | (some e, r) => (Except.error e, w.put r)
          | (none, r) => (.ok true, w.put r)
        else (.ok false, w.put r)) =
      ((w.settle h tick due m).1, w.put (w.settle h tick due m).2) := by
  rw [Run.settle]
  rcases w.isStale h m with ⟨stale, r⟩
  cases hdue : due || stale with
  | false => simp [hdue]
  | true =>
    simp only [hdue, if_true]
    rcases r.reloadAt h tick m with ⟨_ | e, r⟩ <;> rfl

theorem visit_of_visited {bound depth : Nat} (hseen : m.name ∈ w.visited) :
    Walk.visit h tick bound depth force m w = (.ok false, w) := by
  cases bound with
  | zero => rfl
  | succ bound => rw [Walk.visit, if_pos (by simpa using hseen)]

section Visit

variable {bound depth : Nat} {children : List Module} {r : Run σ τ} {due : Bool} {e : ReloadError}

theorem visit_of_error (hnew : m.name ∉ w.visited)
    (hr : (Walk.announce depth m (w.engine.times.get? m.name) w.toRun).childrenOf h m =
      (children, r))
    (hbelow : Walk.eachChild (Walk.visit h tick bound (depth + 1) false) m
      (w.engine.times.get? m.name) children
      false ((w.put r).visiting m) = (.error e, w₁)) :
    Walk.visit h tick (bound + 1) depth force m w = (.error e, w₁) := by
  rw [Walk.visit, if_neg (by simpa using hnew)]
  simp only [hr, hbelow]

theorem visit_of_ok (hnew : m.name ∉ w.visited)
    (hr : (Walk.announce depth m (w.engine.times.get? m.name) w.toRun).childrenOf h m =
      (children, r))
    (hbelow : Walk.eachChild (Walk.visit h tick bound (depth + 1) false) m
      (w.engine.times.get? m.name) children
      false ((w.put r).visiting m) = (.ok due, w₁)) :
    Walk.visit h tick (bound + 1) depth force m w =
      ((w₁.settle h tick (force || due) m).1, w₁.put (w₁.settle h tick (force || due) m).2) := by
  rw [Walk.visit, if_neg (by simpa using hnew)]
  simp only [hr, hbelow]
  exact settle_eq w₁ _ m

end Visit

/-- **The walk unwinds.** If the walk has met only names of the stock, then whatever bound it is
given that is not less than what is still to be met, it visits the module as it would without a
bound. -/
theorem exists_visit (n depth : Nat) (force : Bool) (m : Module) (w : Walk σ τ)
    (hm : m.name ∈ names) (hw : Within h names w.engine) (hn : w.unmet names ≤ n) :
    ∃ vs err w', Unwinds h tick force [m] w vs err w' ∧ ∀ bound, n ≤ bound →
      Walk.visit h tick bound depth force m w = (answer err (vs.any Prod.fst), w') := by
  induction n generalizing depth force m w with
  | zero =>
    by_cases hseen : m.name ∈ w.visited
    · exact ⟨_, none, w, passed hseen, fun bound _ ↦ visit_of_visited hseen⟩
    · exact absurd (Walk.unmet_pos hm hseen) (Nat.not_lt_of_le hn)
  | succ n ih =>
    by_cases hseen : m.name ∈ w.visited
    · exact ⟨_, none, w, passed hseen, fun bound _ ↦ visit_of_visited hseen⟩
    obtain ⟨ns, hns⟩ := exists_announce depth m (w.engine.times.get? m.name) w
    obtain ⟨children, r, hr⟩ : ∃ children r, (w.noted ns).toRun.childrenOf h m = (children, r) :=
      ⟨_, _, rfl⟩
    have hentering : (w.put r).visiting m = w.entering h ns m := by rw [Walk.entering, hr]
    have hchildren : children = w.engine.childrenOf h w.state m := by
      have hfst := Walk.childrenOf_fst h m (w.noted ns).toRun
      rw [hr] at hfst
      exact hfst
    -- The name of the module is met here, so one name less is to come below it.
    have hless : (w.entering h ns m).unmet names ≤ n :=
      Nat.le_of_lt_succ (Nat.lt_of_lt_of_le (Walk.unmet_entering_lt hm hseen) hn)
    obtain ⟨vs, err, w₁, hu, heq⟩ := exists_eachChild m (w.engine.times.get? m.name)
      (fun c w hc hw hn ↦ ih (depth + 1) false c w hc hw hn) children false (w.entering h ns m)
      (fun c hc ↦ hw.childrenOf (hchildren ▸ hc)) (hw.entering ns m) hless
    rw [← hns] at hr
    rw [hchildren] at hu
    cases err with
    | some e =>
      refine ⟨_, some e, w₁, .broken ns hseen hu, fun bound hbound ↦ ?_⟩
      obtain ⟨k, rfl⟩ := Nat.exists_eq_add_of_le' hbound
      have hbelow := heq (k + n) (Nat.le_add_left n k)
      rw [← hentering, answer_some] at hbelow
      exact visit_of_error hseen hr hbelow
    | none =>
      obtain ⟨result, r', hsettle⟩ : ∃ result r', w₁.settle h tick
        (force || Walk.isDueBy (w.engine.times.get? m.name) vs) m = (result, r') := ⟨_, _, rfl⟩
      have hvisit (bound : Nat) (hbound : n + 1 ≤ bound) :
          Walk.visit h tick bound depth force m w = (result, w₁.put r') := by
        obtain ⟨k, rfl⟩ := Nat.exists_eq_add_of_le' hbound
        have hbelow := heq (k + n) (Nat.le_add_left n k)
        rw [← hentering, answer_none, Bool.false_or] at hbelow
        rw [← Nat.add_assoc, visit_of_ok hseen hr hbelow, hsettle]
      cases result with
      | error e => exact ⟨_, some e, w₁.put r', .fail ns hseen hu hsettle, hvisit⟩
      | ok b =>
        refine ⟨_, none, w₁.put r', .turn ns hseen hu hsettle nil, fun bound hbound ↦ ?_⟩
        rw [hvisit bound hbound]
        simp

end Unwinds

/-! ## Asking for change -/

namespace Tour

variable {names : List String}

/-- Checking the dependencies of a module in order is a tour, if checking each single one is. Here
`check` is given by its bound. -/
theorem exists_anyChild {n : Nat} {check : Nat → Module → Walk σ τ → Bool × Walk σ τ}
    (hcheck : ∀ (c : Module) (w : Walk σ τ), c.name ∈ names → Within h names w.engine →
      w.unmet names ≤ n →
      ∃ xs b w', Tour h (fun m r ↦ r.Looks h m) [c] w xs b w' ∧
      ∀ bound, n ≤ bound → check bound c w = (b, w')) (cs : List Module) (w : Walk σ τ)
    (hcs : ∀ c ∈ cs, c.name ∈ names) (hw : Within h names w.engine) (hn : w.unmet names ≤ n) :
    ∃ xs b w', Tour h (fun m r ↦ r.Looks h m) cs w xs b w' ∧
      ∀ bound, n ≤ bound → Walk.anyChild (check bound) cs w = (b, w') := by
  induction cs generalizing w with
  | nil =>
    exact ⟨[], false, w, nil, fun bound _ ↦ rfl⟩
  | cons c cs ih =>
    rw [List.forall_mem_cons] at hcs
    obtain ⟨xs, b, w₁, ht, heq⟩ := hcheck c w hcs.1 hw hn
    cases b with
    | true =>
      have ht' : Tour h (fun m r ↦ r.Looks h m) ([c] ++ cs) w xs true w₁ := ht.of_ended
      refine ⟨xs, true, w₁, ht', fun bound hbound ↦ ?_⟩
      rw [Walk.anyChild, heq bound hbound]
    | false =>
      have hn₁ : w₁.unmet names ≤ n := Nat.le_trans (Walk.unmet_le ht.visited_subset) hn
      obtain ⟨ys, b, w', ht', heq'⟩ := ih w₁ hcs.2 (hw.tour (Run.isTurn_looks h) ht) hn₁
      refine ⟨xs ++ ys, b, w', ht.append ht', fun bound hbound ↦ ?_⟩
      rw [Walk.anyChild, heq bound hbound]
      exact heq' bound hbound

theorem check_of_visited {bound : Nat} {m : Module} {w : Walk σ τ} (hseen : m.name ∈ w.visited) :
    Walk.check h bound m w = (false, w) := by
  cases bound with
  | zero => rfl
  | succ bound => rw [Walk.check, if_pos (by simpa using hseen)]

/-- **The check is a tour.** If the walk has met only names of the stock, then whatever bound it is
given that is not less than what is still to be met, it checks the module as it would without a
bound. -/
theorem exists_check (n : Nat) (m : Module) (w : Walk σ τ) (hm : m.name ∈ names)
    (hw : Within h names w.engine) (hn : w.unmet names ≤ n) :
    ∃ xs b w', Tour h (fun m r ↦ r.Looks h m) [m] w xs b w' ∧
      ∀ bound, n ≤ bound → Walk.check h bound m w = (b, w') := by
  induction n generalizing m w with
  | zero =>
    by_cases hseen : m.name ∈ w.visited
    · exact ⟨[], false, w, passed hseen, fun bound _ ↦ check_of_visited hseen⟩
    · exact absurd (Walk.unmet_pos hm hseen) (Nat.not_lt_of_le hn)
  | succ n ih =>
    by_cases hseen : m.name ∈ w.visited
    · exact ⟨[], false, w, passed hseen, fun bound _ ↦ check_of_visited hseen⟩
    obtain ⟨children, r, hr⟩ : ∃ children r, w.toRun.childrenOf h m = (children, r) := ⟨_, _, rfl⟩
    have hentering : (w.put r).visiting m = w.entering h [] m := by
      rw [Walk.entering, Walk.noted_nil, hr]
    have hchildren : children = w.engine.childrenOf h w.state m := by
      have hfst := Walk.childrenOf_fst h m w.toRun
      rw [hr] at hfst
      exact hfst
    have hless : (w.entering h [] m).unmet names ≤ n :=
      Nat.le_of_lt_succ (Nat.lt_of_lt_of_le (Walk.unmet_entering_lt hm hseen) hn)
    obtain ⟨xs, b, w₁, ht, heq⟩ := exists_anyChild (fun c w hc hw hn ↦ ih c w hc hw hn) children
      (w.entering h [] m) (fun c hc ↦ hw.childrenOf (hchildren ▸ hc)) (hw.entering [] m) hless
    rw [hchildren] at ht
    obtain ⟨stale, r', hstale⟩ : ∃ stale r', w₁.isStale h m = (stale, r') := ⟨_, _, rfl⟩
    have hcheck (bound : Nat) (hbound : n + 1 ≤ bound) :
        Walk.check h bound m w = if b then (true, w₁) else (stale, w₁.put r') := by
      obtain ⟨k, rfl⟩ := Nat.exists_eq_add_of_le' hbound
      rw [← Nat.add_assoc, Walk.check, if_neg (by simpa using hseen)]
      simp only [hr, hentering, heq (k + n) (Nat.le_add_left n k)]
      cases b with
      | true => rfl
      | false => simp only [hstale, Bool.false_eq_true, if_false]
    cases b with
    | true => exact ⟨xs, true, w₁, .broken [] hseen ht, hcheck⟩
    | false =>
      cases stale with
      | true => exact ⟨_, true, w₁.put r', .stop [] hseen ht hstale, hcheck⟩
      | false => exact ⟨_, false, w₁.put r', .turn [] hseen ht hstale nil, hcheck⟩

end Tour

/-! ## The calls -/

/-- The walk that a call begins with: the clock has been advanced, and nothing is visited. -/
def Walk.opening (r : Run σ τ) : Walk σ τ :=
  ⟨r.tick.2, []⟩

namespace Run

/-- The call of `autoreload` with another bound on the depth of its walk. -/
def autoreloadWithin (h : Host σ τ) (bound : Nat) (m : Module) (force : Bool) (r : Run σ τ) :
    Except ReloadError Bool × Run σ τ :=
  let (tick, r) := r.tick
  let r := r.say "autoreload" .debug m.name
  let (result, w) := Walk.visit h tick bound 0 force m ⟨r, []⟩
  (result, w.toRun)

/-- The recursive call of `isOutdated` with another bound on the depth of its walk. -/
def isOutdatedWithin (h : Host σ τ) (bound : Nat) (m : Module) (r : Run σ τ) : Bool × Run σ τ :=
  let (outdated, w) := Walk.check h bound m ⟨r, []⟩
  (outdated, w.toRun)

/-- That a call of `autoreload` comes to an end by itself: it unwinds, visiting its module with a
new tick, and answers whether it reloaded the module or why it stopped. Any bound from its own on
leads to the same end. -/
def ReloadEnds (h : Host σ τ) (m : Module) (force : Bool) (r : Run σ τ) : Prop :=
  ∃ vs err w, Unwinds h (r.engine.times.clock + 1) force [m] (Walk.opening r) vs err w ∧
    r.autoreload h m force = (answer err (vs.any Prod.fst), w.toRun) ∧
    ∀ bound, r.reach h ≤ bound → r.autoreloadWithin h bound m force = r.autoreload h m force

/-- That a question for change comes to an end by itself: it is a tour that asks and looks, and the
answer is whether it was ended early. Any bound from its own on leads to the same end. -/
def QuestionEnds (h : Host σ τ) (m : Module) (r : Run σ τ) : Prop :=
  ∃ xs ended w, Tour h (fun m r ↦ r.Looks h m) [m] ⟨r, []⟩ xs ended w ∧
    r.isOutdated h m true = (ended, w.toRun) ∧
    ∀ bound, r.reach h ≤ bound → r.isOutdatedWithin h bound m = r.isOutdated h m true

/-- All names that a call can meet. There are as many of them as the bound of the call says. -/
def names (h : Host σ τ) (m : Module) (r : Run σ τ) : List String :=
  m.name :: (h.modules ++ r.engine.dependencies.entries.flatMap (·.2)).map Module.name

theorem length_names (m : Module) (r : Run σ τ) : (r.names h m).length = r.reach h := by
  rw [names, reach, List.length_cons, List.length_map, List.length_append]

theorem within_names (m : Module) (r : Run σ τ) : Within h (r.names h m) r.engine where
  loaded c hc := List.mem_cons_of_mem _ (List.mem_map_of_mem (List.mem_append_left _ hc))
  remembered n children hn c hc := by
    have hmem : c ∈ r.engine.dependencies.entries.flatMap (·.2) :=
      List.mem_flatMap.mpr ⟨_, Table.mem_entries_of_get? hn, hc⟩
    exact List.mem_cons_of_mem _ (List.mem_map_of_mem (List.mem_append_right _ hmem))

theorem unmet_names_le (m : Module) (r : Run σ τ) (w : Walk σ τ) :
    w.unmet (r.names h m) ≤ r.reach h :=
  Nat.le_trans (List.length_filter_le _ _) (Nat.le_of_eq (length_names m r))

/-- **Every call of `autoreload` comes to an end.** -/
theorem reloadEnds (m : Module) (force : Bool) (r : Run σ τ) : r.ReloadEnds h m force := by
  let w : Walk σ τ := (Walk.opening r).noted [⟨"autoreload", .debug, m.name⟩]
  have hwithin : Within h (r.names h m) w.engine := ⟨(within_names m r).1, (within_names m r).2⟩
  obtain ⟨vs, err, w', hu, heq⟩ :=
    Unwinds.exists_visit (r.reach h) 0 force m w List.mem_cons_self hwithin
      (unmet_names_le m r w)
  have hcall (bound : Nat) (hbound : r.reach h ≤ bound) :
      r.autoreloadWithin h bound m force = (answer err (vs.any Prod.fst), w'.toRun) := by
    have hvisit : r.autoreloadWithin h bound m force = Prod.map id Walk.toRun
        (Walk.visit h (r.engine.times.clock + 1) bound 0 force m w) := rfl
    rw [hvisit, heq bound hbound]
    rfl
  have hown : r.autoreload h m force = r.autoreloadWithin h (r.reach h) m force := rfl
  refine ⟨vs, err, w', hu.of_noted, hown.trans (hcall _ (Nat.le_refl _)), fun bound hbound ↦ ?_⟩
  rw [hown, hcall bound hbound, hcall _ (Nat.le_refl _)]

/-- **Every question for change comes to an end.** -/
theorem questionEnds (m : Module) (r : Run σ τ) : r.QuestionEnds h m := by
  obtain ⟨xs, ended, w', ht, heq⟩ := Tour.exists_check (r.reach h) m ⟨r, []⟩ List.mem_cons_self
    (within_names (h := h) m r) (unmet_names_le m r _)
  have hcall (bound : Nat) (hbound : r.reach h ≤ bound) :
      r.isOutdatedWithin h bound m = (ended, w'.toRun) := by
    rw [isOutdatedWithin, heq bound hbound]
  have hown : r.isOutdated h m true = r.isOutdatedWithin h (r.reach h) m := rfl
  refine ⟨xs, ended, w', ht, hown.trans (hcall _ (Nat.le_refl _)), fun bound hbound ↦ ?_⟩
  rw [hown, hcall bound hbound, hcall _ (Nat.le_refl _)]

end Run

end ModuleReload
