import Mathlib.Tactic.Push
import ModuleReload.Proofs.Watch.Call

/-!
# Sessions whose reloads are foreseeable

On a graph without cycles, with sources that can be read and reloads that leave the dependencies as
they are (`Session.Steady`), a row of calls does what one build would: it reloads the modules that
are due and all that depend on them, each once (`Session.ToReload`). The calls have their own ticks
and their own visits, and know of each other only by what they leave in the engine.

What one call leaves to the next is what carries this. Of the modules that depend on one that was
due, the call reloads those that it reaches and leaves exactly the others
(`Session.Steady.affected_autoreload_iff`). So later calls neither repeat a reload nor miss one, and
in which order they come does not matter.
-/

namespace ModuleReload.Session

variable {fs : FileSystem} {s s' : Session} {D : Module → Prop} {m x : Module}

/-! ## What there is to reload -/

/-- A module of the tree that bears one of the names reaches the module. -/
def ReachedFrom (fs : FileSystem) (s : Session) (names : List String) (x : Module) : Prop :=
  ∃ name ∈ names, ∃ m, s.tree.module? name = some m ∧ m.ReachesBy (s.childrenOf fs) x

/-- A target reaches the module. -/
def Reaches (fs : FileSystem) (s : Session) : Module → Prop :=
  s.ReachedFrom fs s.targets

/-- The module is due, or depends on one that is. -/
def Affected (fs : FileSystem) (s : Session) : Module → Prop :=
  Module.Affected (s.childrenOf fs) (s.isDue fs · = true)

/-- The least set of modules that are reached from the targets which holds those that are due and,
with a module, those that depend on it. -/
inductive ToReload (fs : FileSystem) (s : Session) : Module → Prop
  | due {x : Module} (hx : s.Reaches fs x) (hdue : s.isDue fs x = true) : ToReload fs s x
  | child {x c : Module} (hx : s.Reaches fs x) (hc : c ∈ s.childrenOf fs x)
      (hbelow : ToReload fs s c) : ToReload fs s x

/-- Reloads of modules of a set are foreseeable: none is on a cycle of dependencies, their sources
can be read, and a reload leaves a module with the dependencies that it has. -/
structure Steady (fs : FileSystem) (D : Module → Prop) (s : Session) : Prop where
  acyclic : ∀ x, D x → ∀ c ∈ s.childrenOf fs x, ¬c.ReachesBy (s.childrenOf fs) x
  readable : ∀ x p, D x → x.file = some p → ∃ source, fs.read p = .ok source
  reread : ∀ x, D x → s.reread fs x = s.childrenOf fs x

theorem Steady.congr {D' : Module → Prop} (hsteady : s.Steady fs D) (htree : s'.tree = s.tree)
    (hengine : s'.engine = s.engine) (hD : ∀ x, D' x → D x) : s'.Steady fs D' where
  acyclic x hx := by
    rw [childrenOf_congr fs htree hengine]
    exact hsteady.acyclic x (hD x hx)
  readable x p hx := hsteady.readable x p (hD x hx)
  reread x hx := by
    rw [Session.reread, htree, hengine, childrenOf_congr fs htree hengine]
    exact hsteady.reread x (hD x hx)

theorem ReachedFrom.child {names : List String} {c : Module} (hx : s.ReachedFrom fs names x)
    (hc : c ∈ s.childrenOf fs x) : s.ReachedFrom fs names c := by
  obtain ⟨name, hname, m, hm, hpath⟩ := hx
  exact ⟨name, hname, m, hm, .tail hpath hc⟩

theorem reachedFrom_cons {name : String} {names : List String} :
    s.ReachedFrom fs (name :: names) x ↔
      (∃ m, s.tree.module? name = some m ∧ m.ReachesBy (s.childrenOf fs) x) ∨
        s.ReachedFrom fs names x := by
  simp [ReachedFrom]

theorem toReload_iff : s.ToReload fs x ↔ s.Reaches fs x ∧ s.Affected fs x := by
  constructor
  · intro h
    induction h with
    | due hx hdue => exact ⟨hx, .self hdue⟩
    | child hx hc _ ih => exact ⟨hx, .child hc ih.2⟩
  · rintro ⟨hx, haffected⟩
    induction haffected with
    | self hdue => exact .due hx hdue
    | child hc _ ih => exact .child hx hc (ih (hx.child hc))

/-- Which modules are reached does not depend on the order or the repetition of the targets. -/
theorem reaches_congr (htree : s'.tree = s.tree) (hengine : s'.engine = s.engine)
    (htargets : ∀ n, n ∈ s'.targets ↔ n ∈ s.targets) : s'.Reaches fs x ↔ s.Reaches fs x := by
  refine exists_congr fun name ↦ ?_
  rw [htargets, htree, childrenOf_congr fs htree hengine]

theorem toReload_congr (htree : s'.tree = s.tree) (hengine : s'.engine = s.engine)
    (htargets : ∀ n, n ∈ s'.targets ↔ n ∈ s.targets) : s'.ToReload fs x ↔ s.ToReload fs x := by
  rw [toReload_iff, toReload_iff, reaches_congr htree hengine htargets, Affected, Affected]
  simp only [isDue, hengine, childrenOf_congr fs htree hengine]

theorem Sound.congr (hs : s.Sound) (htree : s'.tree = s.tree) (hengine : s'.engine = s.engine) :
    s'.Sound where
  tree := htree ▸ hs.tree
  engine := hengine ▸ hs.engine
  knows := htree ▸ hengine ▸ hs.knows

theorem Sound.mem_of_reachedFrom (hs : s.Sound) {names : List String}
    (hx : s.ReachedFrom fs names x) : x ∈ s.tree.modules := by
  obtain ⟨name, -, m, hm, hpath⟩ := hx
  exact (hs.closed fs).of_reachesBy (mem_of_module? hm).1 hpath

theorem Sound.closed_of_subset (hs : s.Sound) (hsub : ∀ x, D x → x ∈ s.tree.modules)
    (hD : ∀ x, D x → ∀ c ∈ s.childrenOf fs x, D c) : Module.Closed D (s.childrenOf fs) where
  children := hD
  handle x y hx hy hname := hs.tree.eq_of_name (hsub x hx) (hsub y hy) hname

theorem ReachedFrom.of_closed {names : List String} (hx : s.ReachedFrom fs names x)
    (hD : Module.Closed D (s.childrenOf fs))
    (hnames : ∀ name ∈ names, ∀ m, s.tree.module? name = some m → D m) : D x := by
  obtain ⟨name, hname, m, hm, hpath⟩ := hx
  exact hD.of_reachesBy (hnames name hname m hm) hpath

theorem Sound.separate (hs : s.Sound) (fs : FileSystem) (hsub : ∀ x, D x → x ∈ s.tree.modules) :
    (s.tree.host fs).Separate D :=
  fun state x y hx hy ↦ SourceTree.separate hs.tree state x y (hsub x hx) (hsub y hy)

/-! ## Reloads in a row -/

/-- The second session is what the first becomes when the modules of `R` are reloaded once each, and
the reloads do not change the dependencies of the modules of `D`. -/
structure Reloads (fs : FileSystem) (D R : Module → Prop) (s s' : Session) : Prop where
  same : s.tree.SameModules s'.tree
  targets : s'.targets = s.targets
  children : ∀ x, D x → s'.childrenOf fs x = s.childrenOf fs x
  reread : ∀ x, D x → s'.reread fs x = s.reread fs x
  once : ∀ x ∈ s.tree.modules, R x → s'.generation x = s.generation x + 1
  others : ∀ x ∈ s.tree.modules, ¬R x → s'.generation x = s.generation x
  clock : s.engine.times.clock ≤ s'.engine.times.clock
  later : ∀ x, R x → ∃ u, s'.engine.times.get? x.name = some u ∧ s.engine.times.clock < u
  kept : ∀ n, (∀ x, R x → x.name ≠ n) → s'.engine.times.get? n = s.engine.times.get? n

namespace Reloads

variable {R R' : Module → Prop} {s₁ : Session}

theorem trans (h : Reloads fs D R s s₁) (h' : Reloads fs D R' s₁ s')
    (hdisjoint : ∀ x, R x → ¬R' x) : Reloads fs D (fun x ↦ R x ∨ R' x) s s' where
  same := h.same.trans h'.same
  targets := h'.targets.trans h.targets
  children x hx := (h'.children x hx).trans (h.children x hx)
  reread x hx := (h'.reread x hx).trans (h.reread x hx)
  once x hx hreloaded := by
    have hx' : x ∈ s₁.tree.modules := h.same.modules ▸ hx
    rcases hreloaded with hR | hR'
    · rw [h'.others x hx' (hdisjoint x hR), h.once x hx hR]
    · rw [h'.once x hx' hR', h.others x hx fun hR ↦ hdisjoint x hR hR']
  others x hx hnot := by
    rw [not_or] at hnot
    rw [h'.others x (h.same.modules ▸ hx) hnot.2, h.others x hx hnot.1]
  clock := Nat.le_trans h.clock h'.clock
  later x hx := by
    by_cases hlater : ∃ y, R' y ∧ y.name = x.name
    · obtain ⟨y, hy, hname⟩ := hlater
      obtain ⟨u, hu, hlt⟩ := h'.later y hy
      exact ⟨u, hname ▸ hu, Nat.lt_of_le_of_lt h.clock hlt⟩
    · have hR : R x := hx.resolve_right fun hR' ↦ hlater ⟨x, hR', rfl⟩
      obtain ⟨u, hu, hlt⟩ := h.later x hR
      refine ⟨u, ?_, hlt⟩
      rw [h'.kept x.name fun y hy hname ↦ hlater ⟨y, hy, hname⟩, hu]
  kept n hn := by
    rw [h'.kept n fun x hx ↦ hn x (.inr hx), h.kept n fun x hx ↦ hn x (.inl hx)]

theorem congr (h : Reloads fs D R s s') (hR : ∀ x, R x ↔ R' x) : Reloads fs D R' s s' := by
  obtain rfl : R = R' := funext fun x ↦ propext (hR x)
  exact h

theorem of_eq (htree : s'.tree = s.tree) (hengine : s'.engine = s.engine)
    (htargets : s'.targets = s.targets) : Reloads fs D (fun _ ↦ False) s s' where
  same := by rw [htree]; exact .refl _
  targets := htargets
  children _ _ := by rw [childrenOf, childrenOf, htree, hengine]
  reread _ _ := by rw [Session.reread, Session.reread, htree, hengine]
  once _ _ hno := hno.elim
  others _ _ _ := by rw [generation, generation, htree]
  clock := by rw [hengine]
  later _ hno := hno.elim
  kept _ _ := by rw [hengine]

theorem steady (h : Reloads fs D R s s') (hD : Module.Closed D (s.childrenOf fs))
    (hsteady : s.Steady fs D) : s'.Steady fs D where
  acyclic x hx c hc hpath := by
    rw [h.children x hx] at hc
    exact hsteady.acyclic x hx c hc
      ((hD.reachesBy_congr h.children (hD.children x hx c hc)).mp hpath)
  readable := hsteady.readable
  reread x hx := by rw [h.reread x hx, h.children x hx, hsteady.reread x hx]

theorem closed (h : Reloads fs D R s s') (hD : Module.Closed D (s.childrenOf fs)) :
    Module.Closed D (s'.childrenOf fs) where
  children x hx c hc := hD.children x hx c (h.children x hx ▸ hc)
  handle := hD.handle

theorem module?_eq (h : Reloads fs D R s s') (name : String) :
    s'.tree.module? name = s.tree.module? name := by
  rw [SourceTree.module?, SourceTree.module?, h.same.modules]

theorem forall_targets (h : Reloads fs D R s s') {P : Module → Prop}
    (hP : ∀ name ∈ s.targets, ∀ m, s.tree.module? name = some m → P m) :
    ∀ name ∈ s'.targets, ∀ m, s'.tree.module? name = some m → P m := by
  intro name hname m hm
  rw [h.targets] at hname
  rw [h.module?_eq] at hm
  exact hP name hname m hm

theorem reachedFrom_iff (h : Reloads fs D R s s') (hD : Module.Closed D (s.childrenOf fs))
    {names : List String} (hnames : ∀ name ∈ names, ∀ m, s.tree.module? name = some m → D m) :
    s'.ReachedFrom fs names x ↔ s.ReachedFrom fs names x := by
  refine exists_congr fun name ↦ and_congr_right fun hname ↦ exists_congr fun m ↦ ?_
  rw [h.module?_eq]
  exact and_congr_right fun hm ↦ hD.reachesBy_congr h.children (hnames name hname m hm)

end Reloads

/-! ## One call -/

theorem Steady.acyclic_of_reachesBy (hsteady : s.Steady fs D)
    (hD : Module.Closed D (s.childrenOf fs)) (hm : D m) (hx : m.ReachesBy (s.childrenOf fs) x) :
    ¬Relation.TransGen (fun a b ↦ b ∈ s.childrenOf fs a) x x := by
  intro hloop
  obtain ⟨c, hc, hpath⟩ := Relation.TransGen.head'_iff.mp hloop
  exact hsteady.acyclic x (hD.of_reachesBy hm hx) c hc hpath

section Call

variable (hsteady : s.Steady fs D) (hs : s.Sound) (hsub : ∀ x, D x → x ∈ s.tree.modules)
  (hD : Module.Closed D (s.childrenOf fs)) (hm : D m)

include hsteady hs hsub hD hm

theorem Steady.autoreload_fst : ∃ b, (s.autoreload fs m).1 = .ok b := by
  obtain ⟨ts, err, w', hv, hanswer, -⟩ := exists_visits hs fs m
  have hts : ∀ t ∈ ts, D t.module ∧ t.children = s.childrenOf fs t.module := by
    refine (hv.found (hs.separate fs hsub) ?_ ?_).2
    · exact hD
    · exact List.forall_mem_singleton.mpr hm
  obtain rfl := hv.err_eq_none_of_attempt fun t ht state ↦
    SourceTree.attempt_fst_eq_none fun p hp ↦ hsteady.readable _ p (hts t ht).1 hp
  exact ⟨_, hanswer⟩

/-- **What a call reloads**: what it reaches among the modules that are due and those that depend on
them. -/
theorem Steady.mem_reloads_iff :
    x ∈ s.reloads fs m ↔ m.ReachesBy (s.childrenOf fs) x ∧ s.Affected fs x := by
  obtain ⟨b, hok⟩ := hsteady.autoreload_fst hs hsub hD hm
  obtain ⟨ts, w', hv, hcall, hts⟩ := exists_visits_of_ok hs (hsub m hm) hok
  have hmodules : ∀ t ∈ ts, t.module ∈ s.tree.modules := fun t ht ↦ (hts t ht).1
  have hreached {x : Module} (hpath : m.ReachesBy (s.childrenOf fs) x) :
      Turn.anyReload (s.tree.host fs) (s.engine.times.clock + 1) ts x.name = true ↔
        s.Affected fs x := by
    have hiff :=
      hv.anyReload_iff_affected (hs.closed fs) (hsub m hm) rfl hs.engine.lt_succ_clock hts
        (fun y ↦ hsteady.acyclic_of_reachesBy hD hm)
        (fun y z hy hz ↦ hs.tree.eq_of_sameSource hy hz) hpath
    simp only [Bool.false_eq_true, false_and, false_or] at hiff
    exact hiff
  constructor
  · intro hreload
    rw [reloads, hcall, hv.reloads_eq] at hreload
    obtain ⟨t, ht, rfl⟩ := List.mem_map.mp hreload
    obtain ⟨ht, hturn⟩ := List.mem_filter.mp ht
    have hpath := hv.reachesBy (fun t ht ↦ (hts t ht).2) ht
    exact ⟨hpath, (hreached hpath).mp (Turn.anyReload_iff.mpr ⟨t, ht, hturn, rfl⟩)⟩
  · rintro ⟨hpath, haffected⟩
    have hx := hsub x (hD.of_reachesBy hm hpath)
    exact (Session.mem_reloads_iff hs hv hcall hmodules hx).mpr ((hreached hpath).mpr haffected)

theorem Steady.reloads_autoreload :
    Reloads fs D (fun x ↦ m.ReachesBy (s.childrenOf fs) x ∧ s.Affected fs x) s
      (s.autoreload fs m).2 := by
  obtain ⟨b, hok⟩ := hsteady.autoreload_fst hs hsub hD hm
  have hreload (x : Module) := hsteady.mem_reloads_iff (x := x) hs hsub hD hm
  refine ⟨sameModules_autoreload hs fs m, targets_autoreload hs fs m, ?_, ?_, ?_, ?_, ?_, ?_, ?_⟩
  · -- What is reread gives the old dependencies.
    intro x hx
    rw [childrenOf_autoreload hs (hsub m hm) hok (hsub x hx), hsteady.reread x hx, ite_self]
  · intro x hx
    exact reread_autoreload hs (hsub m hm) hok (hsub x hx)
  · intro x hx hR
    rw [generation_autoreload hs (hsub m hm) hok hx, if_pos ((hreload x).mpr hR)]
  · intro x hx hR
    rw [generation_autoreload hs (hsub m hm) hok hx, if_neg fun hx ↦ hR ((hreload x).mp hx)]
  · rw [clock_autoreload hs]
    exact Nat.le_succ _
  · intro x hx
    refine ⟨_, ?_, Nat.lt_succ_self _⟩
    rw [times_autoreload hs, if_pos (List.mem_map_of_mem ((hreload x).mpr hx))]
  · intro n hn
    rw [times_autoreload hs, if_neg]
    intro hmem
    obtain ⟨x, hx, rfl⟩ := List.mem_map.mp hmem
    exact hn x ((hreload x).mp hx) rfl

/-- **What a call leaves to the next.** The modules still to be reloaded are those that it has not
reached. -/
theorem Steady.affected_autoreload_iff (hx : D x) :
    (s.autoreload fs m).2.Affected fs x ↔
      s.Affected fs x ∧ ¬m.ReachesBy (s.childrenOf fs) x := by
  obtain ⟨b, hok⟩ := hsteady.autoreload_fst hs hsub hD hm
  obtain ⟨ts, w', hv, hcall, hts⟩ := exists_visits_of_ok hs (hsub m hm) hok
  have hchildren := (hsteady.reloads_autoreload hs hsub hD hm).children
  have hengine : w'.engine = (s.autoreload fs m).2.engine := by
    rw [autoreload_engine, hcall]
  have hend := hv.affected_end_iff (hs.closed fs) (hsub m hm) rfl hs.engine.lt_succ_clock hts
    (fun y ↦ hsteady.acyclic_of_reachesBy hD hm)
    (fun y z hy hz ↦ hs.tree.eq_of_sameSource hy hz) (hsub x hx)
  rw [hengine] at hend
  refine Iff.trans ⟨?_, ?_⟩ hend
  · intro haffected
    refine Module.Affected.of_eqOn (fun y hy c hc ↦ ?_) hchildren (fun y hy hdue ↦ ?_) hx haffected
    · exact hD.children y hy c (hchildren y hy ▸ hc)
    · rw [isDue, hchildren y hy] at hdue
      exact hdue
  · intro haffected
    refine Module.Affected.of_eqOn hD.children (fun y hy ↦ (hchildren y hy).symm)
      (fun y hy hdue ↦ ?_) hx haffected
    rw [isDue, hchildren y hy]
    exact hdue

end Call

/-! ## A row of calls -/

/-- The second session is what the first becomes by calls of the named modules, if these reload what
they reach among the modules that are due and those that depend on them, and leave the others to be
reloaded. -/
structure Serves (fs : FileSystem) (D : Module → Prop) (names : List String) (s s' : Session) :
    Prop where
  reloads : Reloads fs D (fun x ↦ s.ReachedFrom fs names x ∧ s.Affected fs x) s s'
  left : ∀ x, D x → (s'.Affected fs x ↔ s.Affected fs x ∧ ¬s.ReachedFrom fs names x)

namespace Serves

variable {name : String} {names : List String}

theorem nil : Serves fs D [] s s := by
  have hnone : ∀ x, ¬s.ReachedFrom fs [] x := by
    rintro x ⟨name, hname, -⟩
    simp at hname
  refine ⟨(Reloads.of_eq rfl rfl rfl).congr fun x ↦ ?_, fun x _ ↦ ?_⟩
  · exact ⟨False.elim, fun hx ↦ hnone x hx.1⟩
  · exact ⟨fun haffected ↦ ⟨haffected, hnone x⟩, And.left⟩

theorem of_missing (hm : s.tree.module? name = none)
    (h : Serves fs D names (s.log [missing name]) s') : Serves fs D (name :: names) s s' := by
  have hcons : ∀ x, s.ReachedFrom fs (name :: names) x ↔ s.ReachedFrom fs names x := by
    intro x
    rw [reachedFrom_cons, hm]
    simp
  have hlog : Reloads fs D (fun _ ↦ False) s (s.log [missing name]) := .of_eq rfl rfl rfl
  refine ⟨(hlog.trans h.reloads fun x hno ↦ hno.elim).congr fun x ↦ ?_, fun x hx ↦ ?_⟩
  · rw [false_or, hcons]
    rfl
  · rw [hcons]
    exact h.left x hx

/-- What a call reaches is done, and the rest of the row does what is left of the others. -/
theorem cons (hsteady : s.Steady fs D) (hs : s.Sound) (hsub : ∀ x, D x → x ∈ s.tree.modules)
    (hD : Module.Closed D (s.childrenOf fs)) (hm : s.tree.module? name = some m) (hDm : D m)
    (hnames : ∀ name ∈ names, ∀ m, s.tree.module? name = some m → D m)
    (h : Serves fs D names (s.autoreload fs m).2 s') : Serves fs D (name :: names) s s' := by
  have hcons : ∀ x, s.ReachedFrom fs (name :: names) x ↔
      m.ReachesBy (s.childrenOf fs) x ∨ s.ReachedFrom fs names x := by
    intro x
    rw [reachedFrom_cons, hm]
    simp
  have hcall := hsteady.reloads_autoreload hs hsub hD hDm
  have hbetween := fun x ↦ hsteady.affected_autoreload_iff (x := x) hs hsub hD hDm
  have hsame : ∀ x, (s.autoreload fs m).2.ReachedFrom fs names x ↔ s.ReachedFrom fs names x :=
    fun x ↦ hcall.reachedFrom_iff hD hnames
  refine ⟨(hcall.trans h.reloads ?_).congr fun x ↦ ?_, fun x hx ↦ ?_⟩
  · rintro x ⟨hpath, -⟩ ⟨-, hleft⟩
    exact ((hbetween x (hD.of_reachesBy hDm hpath)).mp hleft).2 hpath
  · rw [hsame, hcons]
    constructor
    · rintro (⟨hpath, haffected⟩ | ⟨hlater, haffected⟩)
      · exact ⟨.inl hpath, haffected⟩
      · exact ⟨.inr hlater, ((hbetween x (hlater.of_closed hD hnames)).mp haffected).1⟩
    · rintro ⟨hreached, haffected⟩
      by_cases hpath : m.ReachesBy (s.childrenOf fs) x
      · exact .inl ⟨hpath, haffected⟩
      · have hlater := hreached.resolve_left hpath
        exact .inr ⟨hlater, (hbetween x (hlater.of_closed hD hnames)).mpr ⟨haffected, hpath⟩⟩
  · rw [h.left x hx, hsame, hbetween x hx, hcons, not_or, and_assoc]

end Serves

/-- **A row of calls** of modules of a steady set comes to a result, and serves all of them. -/
theorem Steady.autoreloadAll (hsteady : s.Steady fs D) (hs : s.Sound)
    (hsub : ∀ x, D x → x ∈ s.tree.modules) (hD : Module.Closed D (s.childrenOf fs))
    {names : List String} (hnames : ∀ name ∈ names, ∀ m, s.tree.module? name = some m → D m) :
    (Session.autoreloadAll fs names s).1 = none ∧
      Serves fs D names s (Session.autoreloadAll fs names s).2 := by
  induction names generalizing s with
  | nil => exact ⟨rfl, .nil⟩
  | cons name names ih =>
    rw [List.forall_mem_cons] at hnames
    cases hm : s.tree.module? name with
    | none =>
      have hlog : Reloads fs D (fun _ ↦ False) s (s.log [missing name]) := .of_eq rfl rfl rfl
      rw [autoreloadAll_cons_of_none names hm]
      obtain ⟨hok, hrow⟩ := ih (hlog.steady hD hsteady) (hs.log _) hsub hD hnames.2
      exact ⟨hok, .of_missing hm hrow⟩
    | some m =>
      have hDm : D m := hnames.1 m hm
      have hcall := hsteady.reloads_autoreload hs hsub hD hDm
      obtain ⟨b, hok⟩ := hsteady.autoreload_fst hs hsub hD hDm
      rw [autoreloadAll_cons_of_ok names hm hok]
      obtain ⟨hok, hrow⟩ := ih (hcall.steady hD hsteady) (hs.autoreload (mem_of_module? hm).1)
        (fun x hx ↦ hcall.same.modules ▸ hsub x hx) (hcall.closed hD)
        fun name hname m hm ↦ hnames.2 name hname m (hcall.module?_eq name ▸ hm)
      exact ⟨hok, .cons hsteady hs hsub hD hm hDm hnames.2 hrow⟩

end ModuleReload.Session
