import ModuleReload.Proofs.Watch.Cycle

/-!
# Calm sets and the calls of a cycle

A set of modules is *calm* if no dependency leads out of it and none of its modules is due
(`Session.Calm`). A call keeps calm sets calm, and a call that passes no module over leaves all that
it reaches calm, as long as it changes no dependencies. A call *passes a module over* if it looks at
it and reloads one of its dependencies but not the module itself (`Session.PassesOver`), which
leaves the module to be reloaded by another call. That happens on cycles of dependencies alone,
where some module is looked at before its dependencies have had their turns.

The calls of a cycle come as a list with the sessions that they start from (`Session.Calls`). A call
can change dependencies only by reloading a module whose dependencies are not those that its source
gives, and those modules become fewer every time (`Session.Calls.length_outdated_le`).
-/

namespace ModuleReload.Session

variable {fs : FileSystem} {s s' : Session} {D D' : Module → Prop} {m x : Module} {b : Bool}

/-! ## Calm sets -/

/-- A set of modules of the tree out of which no dependency leads and none of which is due. -/
structure Calm (fs : FileSystem) (D : Module → Prop) (s : Session) : Prop where
  sub : ∀ x, D x → x ∈ s.tree.modules
  children : ∀ x, D x → ∀ c ∈ s.childrenOf fs x, D c
  isDue : ∀ x, D x → s.isDue fs x = false

namespace Calm

theorem union (hD : s.Calm fs D) (hD' : s.Calm fs D') : s.Calm fs fun x ↦ D x ∨ D' x where
  sub x hx := hx.elim (hD.sub x) (hD'.sub x)
  children x hx c hc := hx.imp (hD.children x · c hc) (hD'.children x · c hc)
  isDue x hx := hx.elim (hD.isDue x) (hD'.isDue x)

theorem closed (hD : s.Calm fs D) (hs : s.Sound) : Module.Closed D (s.childrenOf fs) :=
  hs.closed_of_subset hD.sub hD.children

theorem not_mem_reloads (hD : s.Calm fs D) (hs : s.Sound) (hm : m ∈ s.tree.modules)
    (hok : (s.autoreload fs m).1 = .ok b) (hx : D x) : x ∉ s.reloads fs m := by
  obtain ⟨ts, w', hv, hcall, hts⟩ := exists_visits_of_ok hs hm hok
  have hidle := hv.isIdle_of_closed (hs.closed fs) (hD.closed hs) hD.sub hs.engine.lt_succ_clock hts
    hD.isDue
  rw [reloads, hcall, hv.reloads_eq]
  intro hreload
  obtain ⟨t, ht, rfl⟩ := List.mem_map.mp hreload
  obtain ⟨ht, hturn⟩ := List.mem_filter.mp ht
  rw [Replays.isReload_of_isIdle (hidle t ht hx)] at hturn
  exact absurd hturn (by decide)

theorem autoreload (hD : s.Calm fs D) (hs : s.Sound) (hm : m ∈ s.tree.modules)
    (hok : (s.autoreload fs m).1 = .ok b) : (s.autoreload fs m).2.Calm fs D := by
  have hkept : ∀ x, D x → (s.autoreload fs m).2.childrenOf fs x = s.childrenOf fs x := by
    intro x hx
    rw [childrenOf_autoreload hs hm hok (hD.sub x hx), if_neg (hD.not_mem_reloads hs hm hok hx)]
  refine ⟨?_, ?_, ?_⟩
  · intro x hx
    rw [(sameModules_autoreload hs fs m).modules]
    exact hD.sub x hx
  · intro x hx c hc
    rw [hkept x hx] at hc
    exact hD.children x hx c hc
  · intro x hx
    have hcalm := Engine.isDue_eq_false.mp (hD.isDue x hx)
    refine Engine.isDue_eq_false.mpr ⟨isNewer_autoreload_eq_false hs hcalm.1, fun c hc ↦ ?_⟩
    rw [hkept x hx] at hc
    have hcD := hD.children x hx c hc
    rw [← Bool.not_eq_true, isBehind_autoreload_iff hs hm (hD.sub x hx) (hD.sub c hcD),
      hcalm.2 c hc]
    simp [hD.not_mem_reloads hs hm hok hcD]

end Calm

/-! ## Passing over -/

/-- The call for a module passes some module over: it looks at it, and reloads one of its
dependencies but not the module itself. -/
def PassesOver (fs : FileSystem) (s : Session) (m : Module) : Prop :=
  ∃ x ∈ Event.looks (s.call fs m).events, x ∉ s.reloads fs m ∧
    ∃ c ∈ (s.autoreload fs m).2.childrenOf fs x, c ∈ s.reloads fs m

/-- **What a call leaves calm.** All that it reaches, if it changes no dependencies and passes
nothing over. -/
theorem calm_of_not_passesOver (hs : s.Sound) (hm : m ∈ s.tree.modules)
    (hok : (s.autoreload fs m).1 = .ok b) (hnot : ¬s.PassesOver fs m)
    (hkept : ∀ x ∈ s.tree.modules, (s.autoreload fs m).2.childrenOf fs x = s.childrenOf fs x) :
    (s.autoreload fs m).2.Calm fs (m.ReachesBy (s.childrenOf fs)) := by
  obtain ⟨ts, w', hv, hcall, hts⟩ := exists_visits_of_ok hs hm hok
  have hclosed := hs.closed fs
  refine ⟨?_, ?_, ?_⟩
  · intro x hx
    rw [(sameModules_autoreload hs fs m).modules]
    exact hclosed.of_reachesBy hm hx
  · intro x hx c hc
    rw [hkept x (hclosed.of_reachesBy hm hx)] at hc
    exact .tail hx hc
  · intro x hx
    have hxmem := hclosed.of_reachesBy hm hx
    obtain ⟨hnewer, hbehind⟩ := hv.calm hclosed hm rfl hs.engine.lt_succ_clock hts hx
    refine Engine.isDue_eq_false.mpr ⟨?_, fun c hc ↦ ?_⟩
    · rw [autoreload_engine, hcall]
      exact hnewer
    · -- A dependency that the module is behind was reloaded, and the module was passed over.
      rw [← Bool.not_eq_true]
      intro hb
      have hcK : c ∈ s.childrenOf fs x := hkept x hxmem ▸ hc
      have hcmem := hclosed.children x hxmem c hcK
      have hmodules : ∀ t ∈ ts, t.module ∈ s.tree.modules := fun t ht ↦ (hts t ht).1
      rw [autoreload_engine, hcall] at hb
      obtain ⟨hx', hc'⟩ := hbehind c hcK hb
      obtain ⟨t, ht, hmodule⟩ := hv.exists_turn hclosed hm rfl hts hx
      refine hnot ⟨x, ?_, ?_, c, hc, (mem_reloads_iff hs hv hcall hmodules hcmem).mpr hc'⟩
      · rw [hcall, hv.looks_eq]
        exact List.mem_map.mpr ⟨t, ht, hmodule⟩
      · rw [mem_reloads_iff hs hv hcall hmodules hxmem, hx']
        decide

theorem not_passesOver_of_acyclic (hs : s.Sound) (hm : m ∈ s.tree.modules)
    (hok : (s.autoreload fs m).1 = .ok b)
    (hacyclic : ∀ x ∈ s.tree.modules, ¬Relation.TransGen (fun a b ↦ b ∈ s.childrenOf fs a) x x) :
    ¬s.PassesOver fs m := by
  obtain ⟨ts, w', hv, hcall, hts⟩ := exists_visits_of_ok hs hm hok
  have hmodules : ∀ t ∈ ts, t.module ∈ s.tree.modules := fun t ht ↦ (hts t ht).1
  rintro ⟨x, hlook, hx, c, hc, hreload⟩
  rw [hcall, hv.looks_eq] at hlook
  obtain ⟨t, ht, rfl⟩ := List.mem_map.mp hlook
  rw [childrenOf_autoreload hs hm hok (hmodules t ht), if_neg hx] at hc
  have hcmem := (hs.closed fs).children _ (hmodules t ht) c hc
  refine hx ((mem_reloads_iff hs hv hcall hmodules (hmodules t ht)).mpr ?_)
  rw [hv.anyReload_iff_of_acyclic (hs.closed fs) hm rfl hs.engine.lt_succ_clock hts
    (fun y hy ↦ hacyclic y ((hs.closed fs).of_reachesBy hm hy))
    (fun y z hy hz ↦ hs.tree.eq_of_sameSource hy hz)
    (hv.reachesBy (fun t ht ↦ (hts t ht).2) ht)]
  exact .inr (.inr ⟨c, hc, (mem_reloads_iff hs hv hcall hmodules hcmem).mp hreload⟩)

/-! ## The calls of a cycle -/

/-- The calls that a row of targets comes to, each with the session that makes it. -/
def calls (fs : FileSystem) : List String → Session → List (Session × Module)
  | [], _ => []
  | name :: names, s =>
    match s.tree.module? name with
    | none => calls fs names (s.log [missing name])
    | some m =>
      (s, m) :: match s.autoreload fs m with
        | (.error _, _) => []
        | (.ok _, s) => calls fs names s

/-- Calls that all come to a result lead from the first session to the second. -/
inductive Calls (fs : FileSystem) : Session → List (Session × Module) → Session → Prop
  | done (s : Session) : Calls fs s [] s
  | log {s s' : Session} {cs : List (Session × Module)} (ns : List Notice)
      (rest : Calls fs (s.log ns) cs s') : Calls fs s cs s'
  | call {s s' : Session} {m : Module} {b : Bool} {cs : List (Session × Module)}
      (hm : m ∈ s.tree.modules) (hok : (s.autoreload fs m).1 = .ok b)
      (rest : Calls fs (s.autoreload fs m).2 cs s') : Calls fs s ((s, m) :: cs) s'

theorem calls_of_autoreloadAll {names : List String}
    (hok : (autoreloadAll fs names s).1 = none) :
    Calls fs s (s.calls fs names) (autoreloadAll fs names s).2 := by
  induction names generalizing s with
  | nil => exact .done s
  | cons name names ih =>
    rw [autoreloadAll] at hok ⊢
    rw [calls]
    cases hm : s.tree.module? name with
    | none =>
      simp only [hm] at hok ⊢
      exact .log _ (ih hok)
    | some m =>
      obtain ⟨result, s₁, heq⟩ : ∃ result s₁, s.autoreload fs m = (result, s₁) := ⟨_, _, rfl⟩
      simp only [hm, heq] at hok ⊢
      cases result with
      | error e => simp at hok
      | ok b =>
        have hrest := ih hok
        refine .call (mem_of_module? hm).1 (b := b) ?_ ?_
        · rw [heq]
        · rw [heq]
          exact hrest

theorem exists_call {names : List String} (hs : s.Sound)
    (hok : (autoreloadAll fs names s).1 = none) {name : String} (hname : name ∈ names)
    (hm : s.tree.module? name = some m) : ∃ c ∈ s.calls fs names, c.2 = m := by
  induction names generalizing s with
  | nil => simp at hname
  | cons n names ih =>
    rw [autoreloadAll] at hok
    rw [calls]
    cases hn : s.tree.module? n with
    | none =>
      simp only [hn] at hok ⊢
      rcases List.mem_cons.mp hname with rfl | hname
      · rw [hn] at hm
        simp at hm
      · exact ih (hs.log _) hok hname hm
    | some k =>
      have hs₁ : (s.autoreload fs k).2.Sound := hs.autoreload (mem_of_module? hn).1
      have hsame := sameModules_autoreload hs fs k
      obtain ⟨result, s₁, heq⟩ : ∃ result s₁, s.autoreload fs k = (result, s₁) := ⟨_, _, rfl⟩
      rw [heq] at hs₁ hsame
      simp only [hn, heq] at hok ⊢
      cases result with
      | error e => simp at hok
      | ok b =>
        rcases List.mem_cons.mp hname with rfl | hname
        · rw [hn] at hm
          obtain rfl := Option.some.inj hm
          exact ⟨(s, k), List.mem_cons_self, rfl⟩
        · have hm₁ : s₁.tree.module? name = some m := by
            rw [SourceTree.module?, hsame.modules]
            exact hm
          obtain ⟨c, hc, hmodule⟩ := ih hs₁ hok hname hm₁
          exact ⟨c, List.mem_cons_of_mem _ hc, hmodule⟩

namespace Calls

variable {cs : List (Session × Module)}

theorem sound (hc : Calls fs s cs s') (hs : s.Sound) : s'.Sound := by
  induction hc with
  | done => exact hs
  | log ns _ ih => exact ih (hs.log ns)
  | call hm _ _ ih => exact ih (hs.autoreload hm)

theorem sameModules (hc : Calls fs s cs s') (hs : s.Sound) : s.tree.SameModules s'.tree := by
  induction hc with
  | done => exact .refl _
  | log ns _ ih => exact ih (hs.log ns)
  | call hm _ _ ih => exact (sameModules_autoreload hs fs _).trans (ih (hs.autoreload hm))

theorem targets_eq (hc : Calls fs s cs s') (hs : s.Sound) : s'.targets = s.targets := by
  induction hc with
  | done => rfl
  | log ns _ ih => exact ih (hs.log ns)
  | call hm _ _ ih => exact (ih (hs.autoreload hm)).trans (targets_autoreload hs fs _)

theorem forall_of_invariant {I : Session → Prop} (hc : Calls fs s cs s') (hs : I s)
    (hlog : ∀ s ns, I s → I (s.log ns))
    (hcall : ∀ s m b, I s → m ∈ s.tree.modules → (s.autoreload fs m).1 = .ok b →
      I (s.autoreload fs m).2) :
    I s' ∧ ∀ c ∈ cs, I c.1 ∧ c.2 ∈ c.1.tree.modules ∧ ∃ b, (c.1.autoreload fs c.2).1 = .ok b := by
  induction hc with
  | done => exact ⟨hs, by simp⟩
  | log ns _ ih => exact ih (hlog _ ns hs)
  | @call s s' m b cs hm hok _ ih =>
    obtain ⟨hend, hcs⟩ := ih (hcall s m b hs hm hok)
    refine ⟨hend, ?_⟩
    rw [List.forall_mem_cons]
    exact ⟨⟨hs, hm, b, hok⟩, hcs⟩

/-! ### Generations -/

theorem generation_le (hc : Calls fs s cs s') (hs : s.Sound) (hx : x ∈ s.tree.modules) :
    s.generation x ≤ s'.generation x := by
  induction hc with
  | done => exact Nat.le_refl _
  | log ns _ ih => exact ih (hs.log ns) hx
  | @call s s' m b cs hm hok _ ih =>
    have hx₁ : x ∈ (s.autoreload fs m).2.tree.modules :=
      (sameModules_autoreload hs fs m).modules ▸ hx
    refine Nat.le_trans ?_ (ih (hs.autoreload hm) hx₁)
    rw [generation_autoreload hs hm hok hx]
    split
    · exact Nat.le_succ _
    · exact Nat.le_refl _

theorem exists_generation_lt (hc : Calls fs s cs s') (hs : s.Sound) {c : Session × Module}
    (hmem : c ∈ cs) (hx : x ∈ c.1.reloads fs c.2) :
    x ∈ s.tree.modules ∧ s.generation x < s'.generation x := by
  induction hc with
  | done => simp at hmem
  | log ns _ ih => exact ih (hs.log ns) hmem
  | @call s s' m b cs hm hok hrest ih =>
    have hsame := (sameModules_autoreload hs fs m).modules
    rcases List.mem_cons.mp hmem with rfl | hmem
    · have hxmem := mem_of_mem_reloads hs hm hx
      refine ⟨hxmem, Nat.lt_of_lt_of_le ?_ (hrest.generation_le (hs.autoreload hm) (hsame ▸ hxmem))⟩
      rw [generation_autoreload hs hm hok hxmem, if_pos hx]
      exact Nat.lt_succ_self _
    · obtain ⟨hxmem, hlt⟩ := ih (hs.autoreload hm) hmem
      rw [hsame] at hxmem
      refine ⟨hxmem, Nat.lt_of_le_of_lt ?_ hlt⟩
      exact (Calls.call hm hok (.done _)).generation_le hs hxmem

end Calls

/-! ## Modules whose dependencies are not those of their sources -/

/-- The modules that would have other dependencies if they were reloaded. -/
def outdated (fs : FileSystem) (s : Session) : List Module :=
  s.tree.modules.filter fun x ↦ s.childrenOf fs x ≠ s.reread fs x

theorem outdated_autoreload (hs : s.Sound) (hm : m ∈ s.tree.modules)
    (hok : (s.autoreload fs m).1 = .ok b) :
    (s.autoreload fs m).2.outdated fs = (s.outdated fs).filter (· ∉ s.reloads fs m) := by
  rw [outdated, outdated, (sameModules_autoreload hs fs m).modules, List.filter_filter]
  refine List.filter_congr fun x hx ↦ ?_
  rw [childrenOf_autoreload hs hm hok hx, reread_autoreload hs hm hok hx]
  by_cases hreload : x ∈ s.reloads fs m
  · simp [hreload]
  · simp [hreload]

theorem childrenOf_autoreload_of_le (hs : s.Sound) (hm : m ∈ s.tree.modules)
    (hok : (s.autoreload fs m).1 = .ok b)
    (hle : (s.outdated fs).length ≤ ((s.autoreload fs m).2.outdated fs).length)
    (hx : x ∈ s.tree.modules) : (s.autoreload fs m).2.childrenOf fs x = s.childrenOf fs x := by
  rw [outdated_autoreload hs hm hok] at hle
  have hall := List.length_filter_eq_length_iff.mp
    (Nat.le_antisymm (List.length_filter_le _ _) hle)
  rw [childrenOf_autoreload hs hm hok hx]
  split
  · next hreload =>
    by_cases hsame : s.childrenOf fs x = s.reread fs x
    · exact hsame.symm
    · have hout : x ∈ s.outdated fs := List.mem_filter.mpr ⟨hx, by simpa using hsame⟩
      exact absurd hreload (by simpa using hall x hout)
  · rfl

namespace Calls

variable {cs : List (Session × Module)}

theorem length_outdated_le (hc : Calls fs s cs s') (hs : s.Sound) :
    (s'.outdated fs).length ≤ (s.outdated fs).length := by
  induction hc with
  | done => exact Nat.le_refl _
  | log ns _ ih => exact ih (hs.log ns)
  | call hm hok _ ih =>
    refine Nat.le_trans (ih (hs.autoreload hm)) ?_
    rw [outdated_autoreload hs hm hok]
    exact List.length_filter_le _ _

/-- **What calls leave calm.** If none of them passes a module over or changes dependencies, some
calm set holds all the modules they were made for. -/
theorem exists_calm (hc : Calls fs s cs s') (hs : s.Sound)
    (hpass : ∀ c ∈ cs, ¬c.1.PassesOver fs c.2)
    (hle : (s.outdated fs).length ≤ (s'.outdated fs).length) (hD : s.Calm fs D) :
    ∃ D', s'.Calm fs D' ∧ (∀ x, D x → D' x) ∧ ∀ c ∈ cs, D' c.2 := by
  induction hc generalizing D with
  | done => exact ⟨D, hD, fun _ hx ↦ hx, by simp⟩
  | log ns _ ih => exact ih (hs.log ns) hpass hle ⟨hD.sub, hD.children, hD.isDue⟩
  | @call s s' m b cs hm hok hrest ih =>
    rw [List.forall_mem_cons] at hpass
    have hs₁ : (s.autoreload fs m).2.Sound := hs.autoreload hm
    have hfirst : (s.outdated fs).length ≤ ((s.autoreload fs m).2.outdated fs).length :=
      Nat.le_trans hle (hrest.length_outdated_le hs₁)
    have hkept : ∀ x ∈ s.tree.modules,
        (s.autoreload fs m).2.childrenOf fs x = s.childrenOf fs x :=
      fun x hx ↦ childrenOf_autoreload_of_le hs hm hok hfirst hx
    have hcalm := calm_of_not_passesOver hs hm hok hpass.1 hkept
    have hlater : ((s.autoreload fs m).2.outdated fs).length ≤ (s'.outdated fs).length := by
      refine Nat.le_trans ?_ hle
      exact (Calls.call hm hok (.done _)).length_outdated_le hs
    obtain ⟨D', hD', hsub, hcs⟩ :=
      ih hs₁ hpass.2 hlater ((hD.autoreload hs hm hok).union hcalm)
    refine ⟨D', hD', fun x hx ↦ hsub x (.inl hx), ?_⟩
    rw [List.forall_mem_cons]
    exact ⟨hsub m (.inr .refl), hcs⟩

end Calls

/-! ## Cycles at rest -/

namespace Calm

theorem reloads_eq_nil (hD : s.Calm fs D) (hs : s.Sound) (hm : D m) :
    (s.autoreload fs m).1 = .ok false ∧ s.reloads fs m = [] := by
  obtain ⟨ts, err, w', hv, hanswer, hcall⟩ := exists_visits hs fs m
  have hidle := hv.forall_isIdle (List.forall_mem_singleton.mpr hm) hD.children
    fun t _ hx ↦ hD.isDue t.module hx
  constructor
  · rw [hanswer]
    exact hv.answer_of_forall_isIdle hidle m.name
  · rw [reloads, hcall, hv.reloads_eq, List.map_eq_nil_iff, List.filter_eq_nil_iff]
    intro t ht
    rw [Replays.isReload_of_isIdle (hidle t ht)]
    decide

theorem reloads_autoreload (hD : s.Calm fs D) (hs : s.Sound) (hm : D m) :
    Reloads fs D (fun _ ↦ False) s (s.autoreload fs m).2 := by
  obtain ⟨hok, hnil⟩ := hD.reloads_eq_nil hs hm
  have hmem := hD.sub m hm
  refine ⟨sameModules_autoreload hs fs m, targets_autoreload hs fs m, ?_, ?_, fun _ _ ↦ False.elim,
    ?_, ?_, fun _ ↦ False.elim, ?_⟩
  · intro x hx
    rw [childrenOf_autoreload hs hmem hok (hD.sub x hx), hnil, if_neg List.not_mem_nil]
  · intro x hx
    exact reread_autoreload hs hmem hok (hD.sub x hx)
  · intro x hx _
    rw [generation_autoreload hs hmem hok hx, hnil, if_neg List.not_mem_nil]
  · rw [clock_autoreload hs]
    exact Nat.le_succ _
  · intro n _
    rw [times_autoreload hs, hnil, List.map_nil, if_neg List.not_mem_nil]

theorem autoreloadAll (hD : s.Calm fs D) (hs : s.Sound) {names : List String}
    (hnames : ∀ name ∈ names, ∀ m, s.tree.module? name = some m → D m) :
    (Session.autoreloadAll fs names s).1 = none ∧
      Reloads fs D (fun _ ↦ False) s (Session.autoreloadAll fs names s).2 ∧
      (Session.autoreloadAll fs names s).2.Calm fs D := by
  induction names generalizing s with
  | nil => exact ⟨rfl, .of_eq rfl rfl rfl, hD⟩
  | cons name names ih =>
    rw [List.forall_mem_cons] at hnames
    cases hm : s.tree.module? name with
    | none =>
      rw [autoreloadAll_cons_of_none names hm]
      have hlog : Reloads fs D (fun _ ↦ False) s (s.log [missing name]) := .of_eq rfl rfl rfl
      obtain ⟨hok, hrow, hcalm⟩ := ih (s := s.log [missing name])
        ⟨hD.sub, hD.children, hD.isDue⟩ (hs.log _) hnames.2
      exact ⟨hok, (hlog.trans hrow fun _ ↦ False.elim).congr fun _ ↦ or_self_iff, hcalm⟩
    | some m =>
      have hDm := hnames.1 m hm
      obtain ⟨hok, -⟩ := hD.reloads_eq_nil hs hDm
      have hcall := hD.reloads_autoreload hs hDm
      have hD₁ := hD.autoreload hs (hD.sub m hDm) hok
      have hs₁ : (s.autoreload fs m).2.Sound := hs.autoreload (hD.sub m hDm)
      rw [autoreloadAll_cons_of_ok names hm hok]
      obtain ⟨hok, hrow, hcalm⟩ := ih hD₁ hs₁ fun name hname k hk ↦
        hnames.2 name hname k (hcall.module?_eq name ▸ hk)
      exact ⟨hok, (hcall.trans hrow fun _ ↦ False.elim).congr fun _ ↦ or_self_iff, hcalm⟩

/-- **A cycle at rest.** If all targets are in a calm set, nothing is reloaded, and the set stays
calm. -/
theorem cycle (hD : s.Calm fs D) (hs : s.Sound)
    (htargets : ∀ name ∈ s.targets, ∀ m, s.tree.module? name = some m → D m) :
    (s.cycle fs).1 = .unchanged ∧ Reloads fs D (fun _ ↦ False) s (s.cycle fs).2 ∧
      (s.cycle fs).2.Calm fs D := by
  obtain ⟨hok, hrow, hcalm⟩ := hD.autoreloadAll hs htargets
  have hnone : Outcome.unchanged.Tells fun _ ↦ False := fun _ ↦ id
  rw [cycle_snd]
  exact ⟨(tells_cycle hs hok hrow).unique hnone, hrow, hcalm⟩

end Calm

/-! ## A module that imports another -/

section Pair

variable {t : FileSystem.Instant} (hmodules : s.tree.modules = [.upper, .lower])

include hmodules

theorem calm_of_pair
    (hchildren : s.childrenOf (.pair t) .upper = [.lower] ∧ s.childrenOf (.pair t) .lower = [])
    (hdue : s.isDue (.pair t) .upper = false ∧ s.isDue (.pair t) .lower = false) :
    s.Calm (.pair t) fun x ↦ x = .upper ∨ x = .lower where
  sub x hx := by rwa [hmodules, List.mem_pair]
  children := by
    rintro x (rfl | rfl) c hc
    · exact .inr (List.mem_singleton.mp (hchildren.1 ▸ hc))
    · exact absurd (hchildren.2 ▸ hc) List.not_mem_nil
  isDue := by
    rintro x (rfl | rfl)
    · exact hdue.1
    · exact hdue.2

theorem forall_targets_of_pair (name : String) (_ : name ∈ s.targets) (m : Module)
    (hm : s.tree.module? name = some m) : m = .upper ∨ m = .lower := by
  have hmem := (mem_of_module? hm).1
  rwa [hmodules, List.mem_pair] at hmem

end Pair

theorem calm_settled : settled.Calm (.pair 2) fun x ↦ x = .upper ∨ x = .lower :=
  calm_of_pair (by decide +kernel) (by decide +kernel) (by decide +kernel)

end ModuleReload.Session
