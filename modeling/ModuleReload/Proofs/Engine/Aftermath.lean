import Mathlib.Data.List.Induction
import Mathlib.Data.List.Nodup
import ModuleReload.Proofs.Engine.Idle

/-!
# What a call leaves behind

If the reload of a module changes what that module declares and nothing that others do
(`Host.Separate`), a call finds for each module the dependencies that it had when the call began
(`Visits.found`), and leaves it with those, or with new ones if it was reloaded. So its result can
be told in full from the lists at the start.

Afterwards nothing that was reached has changed; and a module is behind a dependency only if it was
*passed over*: the dependency was reloaded in the call, and the module was not (`Visits.calm`). On a
graph without cycles that does not happen, for there a dependency always has its turn first. Then a
module is reloaded exactly if it was due at the start or one of its dependencies is reloaded
(`Visits.anyReload_iff_of_acyclic`), so the modules that are reloaded are all that depend on one
that was due (`Visits.anyReload_iff_affected`).
-/

namespace ModuleReload

variable {σ τ : Type} {h : Host σ τ} {tick : Tick} {P : Module → Prop} {K : Module → List Module}

/-- The least set of modules that holds those of `S` and, with a module, all that depend on it. -/
inductive Module.Affected (K : Module → List Module) (S : Module → Prop) : Module → Prop
  | self {x : Module} (hx : S x) : Affected K S x
  | child {x c : Module} (hc : c ∈ K x) (haffected : Affected K S c) : Affected K S x

theorem Module.Affected.of_eqOn {D S S' : Module → Prop} {K K' : Module → List Module} {x : Module}
    (hD : ∀ x, D x → ∀ c ∈ K x, D c) (hK : ∀ x, D x → K x = K' x) (hS : ∀ x, D x → S x → S' x)
    (hx : D x) (haffected : Affected K S x) : Affected K' S' x := by
  induction haffected with
  | @self x hself => exact .self (hS x hx hself)
  | @child x c hc _ ih => exact .child (hK x hx ▸ hc) (ih (hD x hx c hc))

/-- The reload of a module of `P` does not change what another one declares. -/
def Host.Separate (h : Host σ τ) (P : Module → Prop) : Prop :=
  ∀ state x y, P x → P y → x.name ≠ y.name →
    h.declares (h.attempt state x).2 y = h.declares state y

namespace Visits

variable {force : Bool} {ms : List Module} {m : Module} {w w' : Walk σ τ} {ts : List (Turn σ τ)}
  {err : Option ReloadError}

theorem anyReload_iff_isReload (hv : Visits h tick force ms w ts err w') {t : Turn σ τ}
    (ht : t ∈ ts) :
    Turn.anyReload h tick ts t.module.name = true ↔ t.isReload h tick = true := by
  rw [Turn.anyReload_iff]
  constructor
  · rintro ⟨s, hs, hreload, hname⟩
    obtain rfl := List.inj_on_of_nodup_map hv.nodup hs ht hname
    exact hreload
  · intro hreload
    exact ⟨t, ht, hreload, rfl⟩

/-- Without an error, a module is reloaded in its turn exactly if it is forced or due by then. -/
theorem isReload_iff_isDue (hv : Visits h tick force ms w ts none w') {t : Turn σ τ} (ht : t ∈ ts) :
    t.isReload h tick = true ↔
      t.force = true ∨ t.before.engine.isDue h.files t.module t.children = true := by
  have hidle : t.isReload h tick = true ↔ t.isIdle h.files = false :=
    ⟨fun hreload ↦ ((Turn.isReload_iff h tick t).mp hreload).1, hv.isReload_of_not_isIdle ht⟩
  rw [hidle, ← Bool.not_eq_true, Turn.isIdle_iff, not_and_or, Bool.not_eq_false, Bool.not_eq_false]

theorem name_ne_of_mem {pre post : List (Turn σ τ)} {t s : Turn σ τ}
    (hv : Visits h tick force ms w (pre ++ t :: post) err w') (hs : s ∈ pre) :
    s.module.name ≠ t.module.name := by
  have hnodup := hv.nodup
  rw [List.map_append, List.map_cons, List.nodup_append] at hnodup
  exact hnodup.2.2 _ (List.mem_map_of_mem hs) _ List.mem_cons_self

/-- In its turn a module is behind another one if that was reloaded before in the call, or if the
module was behind it when the call began. -/
theorem isBehind_before_iff {pre post : List (Turn σ τ)} {t : Turn σ τ}
    (hv : Visits h tick force ms w (pre ++ t :: post) err w')
    (htick : ∀ n u, w.engine.times.get? n = some u → u < tick) (c : Module) :
    t.before.engine.isBehind t.module c = true ↔
      Turn.anyReload h tick pre c.name = true ∨ w.engine.isBehind t.module c = true := by
  have hself : Turn.anyReload h tick pre t.module.name = false :=
    Turn.anyReload_eq_false.mpr fun s hs hname ↦ absurd hname (hv.name_ne_of_mem hs)
  rw [hv.replays.split.1.isBehind_iff htick, hself]
  simp

/-- A module with a dependency that was reloaded before in the call, or that it was behind when the
call began, is not left alone. -/
theorem isIdle_eq_false_of_child {pre post : List (Turn σ τ)} {t : Turn σ τ}
    (hv : Visits h tick force ms w (pre ++ t :: post) err w')
    (htick : ∀ n u, w.engine.times.get? n = some u → u < tick) {c : Module} (hc : c ∈ t.children)
    (hchild : Turn.anyReload h tick pre c.name = true ∨ w.engine.isBehind t.module c = true) :
    t.isIdle h.files = false :=
  Turn.isIdle_eq_false_of_isBehind hc ((hv.isBehind_before_iff htick c).mpr hchild)

/-! ## Dependencies that are found -/

theorem childrenOf_after (hsep : h.Separate P) {t : Turn σ τ} (ht : P t.module) {x : Module}
    (hx : P x) (hne : x.name ≠ t.module.name) :
    (t.after h tick).engine.childrenOf h (t.after h tick).state x =
      t.before.engine.childrenOf h t.before.state x := by
  have hdeclares : h.declares (t.after h tick).state x = h.declares t.before.state x := by
    rw [Turn.after_state]
    split
    · rfl
    · exact hsep _ _ _ ht hx (Ne.symm hne)
  rw [Engine.childrenOf, Engine.childrenOf, Turn.after_dependencies_get?,
    if_neg fun hc ↦ hne hc.2, Turn.after_roots, Dependencies.discover, Dependencies.discover,
    hdeclares]

/-- The modules of `P` that have not been visited have the dependencies that `K` says. -/
def Ahead (h : Host σ τ) (P : Module → Prop) (K : Module → List Module) (v : Walk σ τ) : Prop :=
  ∀ x, P x → x.name ∉ v.visited → v.engine.childrenOf h v.state x = K x

theorem Ahead.entering {v : Walk σ τ} (hv : Ahead h P K v) (ns : List Notice) (m : Module) :
    Ahead h P K (v.entering h ns m) := by
  intro x hx hxnew
  have hne : x.name ≠ m.name := fun heq ↦ hxnew (heq ▸ List.mem_cons_self)
  rw [← hv x hx fun hmem ↦ hxnew (List.mem_cons_of_mem _ hmem), Engine.childrenOf,
    Engine.childrenOf, Walk.entering_dependencies_get?, if_neg hne, Walk.entering_state,
    Walk.entering_roots]

theorem Ahead.after {t : Turn σ τ} (ht : Ahead h P K t.before) (hsep : h.Separate P)
    (hm : P t.module) (hself : t.module.name ∈ t.before.visited) :
    Ahead h P K (t.after h tick) := by
  intro x hx hxnew
  have hne : x.name ≠ t.module.name := fun heq ↦ hxnew (heq ▸ hself)
  rw [childrenOf_after hsep hm hx hne]
  exact ht x hx hxnew

/-- **The dependencies that a call finds** are those that the modules have at the start, and those
it has not visited still have them at the end. -/
theorem found (hsep : h.Separate P) (hP : Module.Closed P (w.engine.childrenOf h w.state))
    (hv : Visits h tick force ms w ts err w') (hms : ∀ m ∈ ms, P m) :
    (∀ x, P x → x.name ∉ w'.visited →
      w'.engine.childrenOf h w'.state x = w.engine.childrenOf h w.state x) ∧
    ∀ t ∈ ts, P t.module ∧ t.children = w.engine.childrenOf h w.state t.module := by
  have hall := hv.invariant (P := P) (I := Ahead h P (w.engine.childrenOf h w.state))
    (Q := fun m children ↦ children = w.engine.childrenOf h w.state m) (fun _ _ _ ↦ rfl) hms
    (fun _ _ hfound ↦ hfound)
    (fun v ns m hfound hm hnew ↦ ⟨hfound.entering ns m, hfound m hm hnew, ?_⟩)
    fun t ht hfound hm _ ↦ hfound.after hsep hm (hv.self_visited ht)
  · exact ⟨hall.1, fun t ht ↦ (hall.2 t ht).2⟩
  · rw [hfound m hm hnew]
    exact hP.children m hm

/-- A call leaves a module with the dependencies it had, and with new ones if it was reloaded. -/
theorem childrenOf_end (hsep : h.Separate P)
    (hP : Module.Closed P (w.engine.childrenOf h w.state))
    (hv : Visits h tick force ms w ts none w') (hms : ∀ m ∈ ms, P m) (hstart : w.visited = [])
    {x : Module} (hx : P x) : w'.engine.childrenOf h w'.state x =
      if Turn.anyReload h tick ts x.name = true then
        (Dependencies.discover h w.engine.roots w'.state x).1
      else w.engine.childrenOf h w.state x := by
  obtain ⟨hnew, hts⟩ := hv.found hsep hP hms
  by_cases hvisited : x.name ∈ w'.visited
  · obtain ⟨t, ht, hname⟩ := hv.exists_turn_of_visited hstart hvisited
    obtain rfl := hP.handle _ _ (hts t ht).1 hx hname
    rw [Engine.childrenOf, hv.dependencies_of_mem ht, hv.replays.roots_eq]
    cases hidle : t.isIdle h.files with
    | true =>
      have hnot : ¬Turn.anyReload h tick ts t.module.name = true := by
        rw [hv.anyReload_iff_isReload ht, Replays.isReload_of_isIdle hidle]
        decide
      rw [if_pos rfl, if_neg hnot, Option.getD_some, (hts t ht).2]
    | false =>
      have hreload := hv.isReload_of_not_isIdle ht hidle
      rw [if_neg (by decide), if_pos (Turn.anyReload_iff.mpr ⟨t, ht, hreload, rfl⟩),
        Option.getD_none]
  · have hnot : ¬Turn.anyReload h tick ts x.name = true := by
      rw [Turn.anyReload_iff]
      rintro ⟨t, ht, -, hname⟩
      exact hvisited (hname ▸ (hv.mem_visited ht).2)
    rw [if_neg hnot, hnew x hx hvisited]

/-! ## After a call -/

/-- **What a call leaves.** Nothing that is reached is newer afterwards, and what is behind a
dependency was not reloaded though the dependency was. -/
theorem calm (hP : Module.Closed P K) (hm : P m) (hv : Visits h tick force [m] w ts none w')
    (hstart : w.visited = []) (htick : ∀ n u, w.engine.times.get? n = some u → u < tick)
    (hts : ∀ t ∈ ts, P t.module ∧ t.children = K t.module) {x : Module} (hx : m.ReachesBy K x) :
    w'.engine.isNewer h.files x = false ∧ ∀ c ∈ K x, w'.engine.isBehind x c = true →
      Turn.anyReload h tick ts x.name = false ∧ Turn.anyReload h tick ts c.name = true := by
  obtain ⟨t, ht, rfl⟩ := hv.exists_turn hP hm hstart hts hx
  constructor
  · rw [← Bool.not_eq_true, hv.replays.isNewer_iff]
    rintro ⟨hnewer, hlooked⟩
    exact hlooked t ht (Module.SameSource.of_isNewer hnewer)
  intro c hc hbehind
  obtain ⟨hnot, hreloaded | hbefore⟩ := (hv.replays.isBehind_iff htick _ _).mp hbehind
  · exact ⟨hnot, hreloaded⟩
  -- A module that was behind from the start would have been reloaded in its turn.
  exfalso
  obtain ⟨pre, post, rfl⟩ := List.append_of_mem ht
  have hbusy : t.isIdle h.files = false :=
    hv.isIdle_eq_false_of_child htick ((hts t ht).2 ▸ hc) (.inr hbefore)
  have hreload := hv.isReload_of_not_isIdle ht hbusy
  rw [Turn.anyReload_eq_false.mp hnot t ht rfl] at hreload
  exact absurd hreload (by decide)

theorem reachesBy (hv : Visits h tick force [m] w ts none w')
    (hts : ∀ t ∈ ts, t.children = K t.module) {t : Turn σ τ} (ht : t ∈ ts) :
    m.ReachesBy K t.module := by
  obtain ⟨n, hn, hpath⟩ := hv.reached (E := fun a b ↦ b ∈ K a) (fun s hs d hd ↦ hts s hs ▸ hd) ht
  exact List.mem_singleton.mp hn ▸ hpath

/-- In a closed set of modules none of which is due at the start, nothing happens. -/
theorem isIdle_of_closed {D : Module → Prop} (hP : Module.Closed P K) (hD : Module.Closed D K)
    (hsub : ∀ x, D x → P x) (hv : Visits h tick false ms w ts err w')
    (htick : ∀ n u, w.engine.times.get? n = some u → u < tick)
    (hts : ∀ t ∈ ts, P t.module ∧ t.children = K t.module)
    (hcalm : ∀ x, D x → w.engine.isDue h.files x (K x) = false) :
    ∀ t ∈ ts, D t.module → t.isIdle h.files = true := by
  -- The turns are gone through in order: what is due in its turn was due at the start, or depends
  -- on a module of the set that was reloaded before.
  have hrow (pre : List (Turn σ τ)) : ∀ post, ts = pre ++ post → ∀ t ∈ pre, D t.module →
      t.isIdle h.files = true := by
    induction pre using List.reverseRecOn with
    | nil => simp
    | append_singleton pre s ih =>
      intro post hsplit t ht hx
      rw [List.append_assoc] at hsplit
      rcases List.mem_append.mp ht with hbefore | hlast
      · exact ih _ hsplit t hbefore hx
      obtain rfl := List.mem_singleton.mp hlast
      have hmem : t ∈ ts := by simp [hsplit]
      have hpre := (hsplit ▸ hv.replays).split.1
      have hstart := Engine.isDue_eq_false.mp (hcalm _ hx)
      refine Turn.isIdle_iff.mpr ⟨?_, Engine.isDue_eq_false.mpr ⟨?_, fun c hc ↦ ?_⟩⟩
      · cases hforce : t.force with
        | false => rfl
        | true => exact absurd (hv.of_force hmem hforce).1 (by decide)
      · exact hpre.isNewer_eq_false hstart.1
      · rw [(hts t hmem).2] at hc
        have hcD := hD.children _ hx c hc
        rw [← Bool.not_eq_true, hpre.isBehind_iff htick]
        rintro ⟨-, hreloaded | hbehind⟩
        · obtain ⟨u, hu, hreload, hname⟩ := Turn.anyReload_iff.mp hreloaded
          have huts : u ∈ ts := by simp [hsplit, hu]
          obtain rfl := hP.handle _ _ (hts u huts).1 (hsub c hcD) hname
          rw [Replays.isReload_of_isIdle (ih _ hsplit u hu hcD)] at hreload
          exact absurd hreload (by decide)
        · rw [hstart.2 c hc] at hbehind
          exact absurd hbehind (by decide)
  exact hrow ts [] (List.append_nil ts).symm

/-! ## Graphs without cycles -/

/-- On a graph without cycles, a dependency that has a turn has it first. -/
theorem anyReload_pre_of_acyclic (hP : Module.Closed P K) {pre post : List (Turn σ τ)}
    {t : Turn σ τ} (hv : Visits h tick force ms w (pre ++ t :: post) err w')
    (hts : ∀ s ∈ pre ++ t :: post, P s.module ∧ s.children = K s.module)
    (hacyclic : ¬Relation.TransGen (fun a b ↦ b ∈ K a) t.module t.module) {c : Module}
    (hc : c ∈ K t.module) :
    Turn.anyReload h tick (pre ++ t :: post) c.name = Turn.anyReload h tick pre c.name := by
  have hmem : t ∈ pre ++ t :: post := by simp
  have horder := hv.order (E := fun a b ↦ b ∈ K a) fun s hs d hd ↦ (hts s hs).2 ▸ hd
  rw [List.pairwise_append, List.pairwise_cons] at horder
  -- A dependency that has its turn at this one or after it reaches the module, which is a cycle.
  have hlate : ∀ s ∈ t :: post, c.name ≠ s.module.name := by
    intro s hs hname
    refine hacyclic (.head' hc ?_)
    have hsP : P s.module := (hts s (List.mem_append_right _ hs)).1
    obtain rfl := hP.handle _ _ (hP.children _ (hts t hmem).1 c hc) hsP hname
    rcases List.mem_cons.mp hs with rfl | hs
    · exact .refl
    · exact horder.2.1.1 s hs _ ((hts t hmem).2 ▸ hc) rfl
  have hnone : Turn.anyReload h tick (t :: post) c.name = false :=
    Turn.anyReload_eq_false.mpr fun s hs hname ↦ absurd hname.symm (hlate s hs)
  rw [Turn.anyReload_append, hnone, Bool.or_false]

/-- **When a call reloads a module, on a graph without cycles.** It does so if the module is forced
or was due at the start, or if it reloads one of its dependencies. -/
theorem anyReload_iff_of_acyclic (hP : Module.Closed P K) (hm : P m)
    (hv : Visits h tick force [m] w ts none w') (hstart : w.visited = [])
    (htick : ∀ n u, w.engine.times.get? n = some u → u < tick)
    (hts : ∀ t ∈ ts, P t.module ∧ t.children = K t.module)
    (hacyclic : ∀ x, m.ReachesBy K x → ¬Relation.TransGen (fun a b ↦ b ∈ K a) x x)
    (hsources : ∀ x y, P x → P y → x.SameSource h.files y → x = y) {x : Module}
    (hx : m.ReachesBy K x) :
    Turn.anyReload h tick ts x.name = true ↔ (force = true ∧ x = m) ∨
      w.engine.isDue h.files x (K x) = true ∨
        ∃ c ∈ K x, Turn.anyReload h tick ts c.name = true := by
  obtain ⟨t, ht, rfl⟩ := hv.exists_turn hP hm hstart hts hx
  have hforce : t.force = true ↔ force = true ∧ t.module = m := by
    constructor
    · intro hf
      exact ⟨(hv.of_force ht hf).1, List.mem_singleton.mp (hv.of_force ht hf).2⟩
    · rintro ⟨hf, hmodule⟩
      exact (hv.force_of_module rfl ht (hmodule ▸ rfl)).trans hf
  obtain ⟨pre, post, rfl⟩ := List.append_of_mem ht
  have hnewer : t.before.engine.isNewer h.files t.module = w.engine.isNewer h.files t.module := by
    rw [Bool.eq_iff_iff, hv.replays.split.1.isNewer_iff]
    constructor
    · intro hn
      exact hn.1
    · intro hn
      refine ⟨hn, fun s hs hsame ↦ ?_⟩
      have hsP := (hts s (List.mem_append_left _ hs)).1
      exact hv.name_ne_of_mem hs (congrArg Module.name (hsources _ _ hsP (hts t ht).1 hsame))
  have hbehind : ∀ c ∈ K t.module, t.before.engine.isBehind t.module c = true ↔
      Turn.anyReload h tick (pre ++ t :: post) c.name = true ∨
        w.engine.isBehind t.module c = true := by
    intro c hc
    rw [hv.isBehind_before_iff htick, hv.anyReload_pre_of_acyclic hP hts (hacyclic _ hx) hc]
  rw [hv.anyReload_iff_isReload ht, hv.isReload_iff_isDue ht, hforce, (hts t ht).2, Engine.isDue,
    Engine.isDue, hnewer]
  simp only [Bool.or_eq_true, List.any_eq_true]
  constructor
  · rintro (hf | hn | ⟨c, hc, hb⟩)
    · exact .inl hf
    · exact .inr (.inl (.inl hn))
    · rcases (hbehind c hc).mp hb with hreloaded | hb
      · exact .inr (.inr ⟨c, hc, hreloaded⟩)
      · exact .inr (.inl (.inr ⟨c, hc, hb⟩))
  · rintro (hf | (hn | ⟨c, hc, hb⟩) | ⟨c, hc, hreloaded⟩)
    · exact .inl hf
    · exact .inr (.inl hn)
    · exact .inr (.inr ⟨c, hc, (hbehind c hc).mpr (.inr hb)⟩)
    · exact .inr (.inr ⟨c, hc, (hbehind c hc).mpr (.inl hreloaded)⟩)

/-- **Which modules a call reloads, on a graph without cycles.** All that depend on one that was due
at the start or is forced. -/
theorem anyReload_iff_affected (hP : Module.Closed P K) (hm : P m)
    (hv : Visits h tick force [m] w ts none w') (hstart : w.visited = [])
    (htick : ∀ n u, w.engine.times.get? n = some u → u < tick)
    (hts : ∀ t ∈ ts, P t.module ∧ t.children = K t.module)
    (hacyclic : ∀ x, m.ReachesBy K x → ¬Relation.TransGen (fun a b ↦ b ∈ K a) x x)
    (hsources : ∀ x y, P x → P y → x.SameSource h.files y → x = y) {x : Module}
    (hx : m.ReachesBy K x) :
    Turn.anyReload h tick ts x.name = true ↔ Module.Affected K
      (fun y ↦ (force = true ∧ y = m) ∨ w.engine.isDue h.files y (K y) = true) x := by
  have hstep {y : Module} (hy : m.ReachesBy K y) :=
    hv.anyReload_iff_of_acyclic hP hm hstart htick hts hacyclic hsources hy
  have hreached {t : Turn σ τ} (ht : t ∈ ts) : m.ReachesBy K t.module :=
    hv.reachesBy (fun t ht ↦ (hts t ht).2) ht
  -- The turns are gone through in order. A dependency that is reloaded has had its turn before.
  have hrow (pre : List (Turn σ τ)) : ∀ post, ts = pre ++ post → ∀ t ∈ pre,
      Turn.anyReload h tick ts t.module.name = true → Module.Affected K
        (fun y ↦ (force = true ∧ y = m) ∨ w.engine.isDue h.files y (K y) = true) t.module := by
    induction pre using List.reverseRecOn with
    | nil => simp
    | append_singleton pre s ih =>
      intro post hsplit t ht hreloaded
      rw [List.append_assoc] at hsplit
      rcases List.mem_append.mp ht with hbefore | hlast
      · exact ih _ hsplit t hbefore hreloaded
      obtain rfl := List.mem_singleton.mp hlast
      have hmem : t ∈ ts := by simp [hsplit]
      rcases (hstep (hreached hmem)).mp hreloaded with hforced | hdue | ⟨c, hc, hbelow⟩
      · exact .self (.inl hforced)
      · exact .self (.inr hdue)
      · have hbefore : Turn.anyReload h tick pre c.name = true := by
          rw [← hbelow, hsplit]
          rw [hsplit] at hv hts
          exact (hv.anyReload_pre_of_acyclic hP hts (hacyclic _ (hreached hmem)) hc).symm
        obtain ⟨u, hu, -, hname⟩ := Turn.anyReload_iff.mp hbefore
        have huts : u ∈ ts := by simp [hsplit, hu]
        obtain rfl := hP.handle _ _ (hts u huts).1 (hP.children _ (hts t hmem).1 c hc) hname
        exact .child hc (ih _ hsplit u hu hbelow)
  constructor
  · intro hreloaded
    obtain ⟨t, ht, rfl⟩ := hv.exists_turn hP hm hstart hts hx
    exact hrow ts [] (List.append_nil ts).symm t ht hreloaded
  · intro haffected
    induction haffected with
    | self hself => exact (hstep hx).mpr (hself.elim .inl fun hdue ↦ .inr (.inl hdue))
    | child hc _ ih => exact (hstep hx).mpr (.inr (.inr ⟨_, hc, ih (.tail hx hc)⟩))

theorem anyReload_eq_false_of_not_reachesBy (hP : Module.Closed P K)
    (hv : Visits h tick force [m] w ts none w')
    (hts : ∀ t ∈ ts, P t.module ∧ t.children = K t.module) {x : Module} (hx : P x)
    (hnot : ¬m.ReachesBy K x) : Turn.anyReload h tick ts x.name = false := by
  rw [Turn.anyReload_eq_false]
  intro t ht hname
  obtain rfl := hP.handle _ _ (hts t ht).1 hx hname
  exact absurd (hv.reachesBy (fun t ht ↦ (hts t ht).2) ht) hnot

/-- On a graph without cycles, a call leaves nothing to reload among the modules that it reaches. -/
theorem not_affected_end (hP : Module.Closed P K) (hm : P m)
    (hv : Visits h tick force [m] w ts none w') (hstart : w.visited = [])
    (htick : ∀ n u, w.engine.times.get? n = some u → u < tick)
    (hts : ∀ t ∈ ts, P t.module ∧ t.children = K t.module)
    (hacyclic : ∀ x, m.ReachesBy K x → ¬Relation.TransGen (fun a b ↦ b ∈ K a) x x)
    (hsources : ∀ x y, P x → P y → x.SameSource h.files y → x = y) {x : Module}
    (hx : m.ReachesBy K x) :
    ¬Module.Affected K (fun y ↦ w'.engine.isDue h.files y (K y) = true) x := by
  intro haffected
  induction haffected with
  | @self y hdue =>
    obtain ⟨hnewer, hbehind⟩ := hv.calm hP hm hstart htick hts hx
    rcases Engine.isDue_iff.mp hdue with hn | ⟨c, hc, hb⟩
    · rw [hnewer] at hn
      exact absurd hn (by decide)
    -- A dependency that is reloaded has everything above it reloaded, too.
    obtain ⟨hkept, hbelow⟩ := hbehind c hc hb
    have hreload := (hv.anyReload_iff_of_acyclic hP hm hstart htick hts hacyclic hsources hx).mpr
      (.inr (.inr ⟨c, hc, hbelow⟩))
    rw [hreload] at hkept
    exact absurd hkept (by decide)
  | child hc _ ih => exact ih (.tail hx hc)

/-- **What a call leaves to later ones, on a graph without cycles.** Of the modules that depend on
one that was due, those that it has not reached. -/
theorem affected_end_iff (hP : Module.Closed P K) (hm : P m)
    (hv : Visits h tick false [m] w ts none w') (hstart : w.visited = [])
    (htick : ∀ n u, w.engine.times.get? n = some u → u < tick)
    (hts : ∀ t ∈ ts, P t.module ∧ t.children = K t.module)
    (hacyclic : ∀ x, m.ReachesBy K x → ¬Relation.TransGen (fun a b ↦ b ∈ K a) x x)
    (hsources : ∀ x y, P x → P y → x.SameSource h.files y → x = y) {x : Module} (hx : P x) :
    Module.Affected K (fun y ↦ w'.engine.isDue h.files y (K y) = true) x ↔
      Module.Affected K (fun y ↦ w.engine.isDue h.files y (K y) = true) x ∧ ¬m.ReachesBy K x := by
  have hreload {y : Module} (hy : m.ReachesBy K y) : Turn.anyReload h tick ts y.name = true ↔
      Module.Affected K (fun y ↦ w.engine.isDue h.files y (K y) = true) y := by
    simpa using hv.anyReload_iff_affected hP hm hstart htick hts hacyclic hsources hy
  have hvisited {t : Turn σ τ} (ht : t ∈ ts) : m.ReachesBy K t.module :=
    hv.reachesBy (fun t ht ↦ (hts t ht).2) ht
  have hmissed {y : Module} (hy : P y) (hnot : ¬m.ReachesBy K y) :=
    hv.anyReload_eq_false_of_not_reachesBy hP hts hy hnot
  constructor
  · intro haffected
    refine ⟨?_, fun hy ↦ hv.not_affected_end hP hm hstart htick hts hacyclic hsources hy haffected⟩
    induction haffected with
    | @self y hdue =>
      rcases Engine.isDue_iff.mp hdue with hnewer | ⟨c, hc, hb⟩
      · exact .self (Engine.isDue_iff.mpr (.inl ((hv.replays.isNewer_iff y).mp hnewer).1))
      · rcases ((hv.replays.isBehind_iff htick y c).mp hb).2 with hbelow | hb
        · obtain ⟨t, ht, -, hname⟩ := Turn.anyReload_iff.mp hbelow
          obtain rfl := hP.handle _ _ (hts t ht).1 (hP.children _ hx c hc) hname
          exact .child hc ((hreload (hvisited ht)).mp hbelow)
        · exact .self (Engine.isDue_iff.mpr (.inr ⟨c, hc, hb⟩))
    | child hc _ ih => exact .child hc (ih (hP.children _ hx _ hc))
  · rintro ⟨haffected, hnot⟩
    induction haffected with
    | @self y hdue =>
      refine .self (Engine.isDue_iff.mpr ?_)
      rcases Engine.isDue_iff.mp hdue with hnewer | ⟨c, hc, hb⟩
      · refine .inl ((hv.replays.isNewer_iff y).mpr ⟨hnewer, fun t ht hsame ↦ hnot ?_⟩)
        exact hsources _ _ (hts t ht).1 hx hsame ▸ hvisited ht
      · exact .inr ⟨c, hc, (hv.replays.isBehind_iff htick y c).mpr ⟨hmissed hx hnot, .inr hb⟩⟩
    | @child y c hc hbelow ih =>
      by_cases hreached : m.ReachesBy K c
      · -- The dependency has been reloaded, and this module has not.
        refine .self (Engine.isDue_iff.mpr ?_)
        refine .inr ⟨c, hc, (hv.replays.isBehind_iff htick y c).mpr ⟨hmissed hx hnot, .inl ?_⟩⟩
        exact (hreload hreached).mpr hbelow
      · exact .child hc (ih (hP.children _ hx c hc) hreached)

end Visits

end ModuleReload
