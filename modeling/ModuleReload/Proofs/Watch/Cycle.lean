import ModuleReload.Proofs.Tree.Found
import ModuleReload.Proofs.Watch.Steady

/-!
# Cycles as incremental builds

A cycle is a row of calls. In a steady session it reloads what there is to reload, each module once,
and its outcome tells exactly that (`Session.Reached.cycle_incremental`). How much of it there is
does not turn on the order of the targets, and a second cycle finds nothing left to do.
-/

namespace ModuleReload

/-! ## What an outcome tells -/

/-- The outcome names the modules of a set, in ascending order. -/
def Outcome.Tells (R : Module → Prop) : Outcome → Prop
  | .reloaded names => names ≠ [] ∧ names.Pairwise (· < ·) ∧ ∀ n, n ∈ names ↔ ∃ x, R x ∧ x.name = n
  | .unchanged => ∀ x, ¬R x
  | .failed _ => False

theorem Outcome.Tells.unique {R : Module → Prop} {o o' : Outcome} (ho : o.Tells R)
    (ho' : o'.Tells R) : o = o' := by
  cases o with
  | failed e => exact ho.elim
  | unchanged =>
    cases o' with
    | failed e => exact ho'.elim
    | unchanged => rfl
    | reloaded names =>
      obtain ⟨n, hn⟩ := List.exists_mem_of_ne_nil _ ho'.1
      obtain ⟨x, hx, -⟩ := (ho'.2.2 n).mp hn
      exact absurd hx (ho x)
  | reloaded names =>
    cases o' with
    | failed e => exact ho'.elim
    | unchanged =>
      obtain ⟨n, hn⟩ := List.exists_mem_of_ne_nil _ ho.1
      obtain ⟨x, hx, -⟩ := (ho.2.2 n).mp hn
      exact absurd hx (ho' x)
    | reloaded names' =>
      have hmem : ∀ n, n ∈ names ↔ n ∈ names' := fun n ↦ (ho.2.2 n).trans (ho'.2.2 n).symm
      have hperm : names.Perm names' :=
        (List.perm_ext_iff_of_nodup (ho.2.1.imp ne_of_lt) (ho'.2.1.imp ne_of_lt)).mpr hmem
      have heq : names = names' := hperm.eq_of_pairwise
        (fun _ _ _ _ hab hba ↦ absurd hba (lt_asymm hab)) ho.2.1 ho'.2.1
      rw [heq]

namespace Session

variable {fs : FileSystem} {s s' : Session} {D : Module → Prop} {m x : Module}

/-! ## Cycles -/

/-- The outcome of a cycle without a failure tells of the modules that bear a later time than the
clock showed when the cycle began. -/
theorem tells_of_after {R : Module → Prop} (hok : (autoreloadAll fs s.targets s).1 = none)
    (hmem : ∀ n, n ∈ (autoreloadAll fs s.targets s).2.engine.times.after s.engine.clock? ↔
      ∃ x, R x ∧ x.name = n) : (s.cycle fs).1.Tells R := by
  rw [cycle]
  obtain ⟨err, s', heq⟩ : ∃ err s', autoreloadAll fs s.targets s = (err, s') := ⟨_, _, rfl⟩
  rw [heq] at hok hmem ⊢
  obtain rfl : err = none := hok
  have hsorted : (s'.engine.times.after s.engine.clock?).Pairwise (· < ·) :=
    ReloadTimes.pairwise_namesWhere _ _
  cases hnames : s'.engine.times.after s.engine.clock? with
  | nil =>
    simp only [hnames]
    intro x hx
    have hname := (hmem x.name).mpr ⟨x, hx, rfl⟩
    rw [hnames] at hname
    simp at hname
  | cons n names =>
    simp only [hnames] at hmem hsorted ⊢
    exact ⟨List.cons_ne_nil _ _, hsorted, hmem⟩

theorem tells_cycle {R : Module → Prop} (hs : s.Sound)
    (hok : (autoreloadAll fs s.targets s).1 = none)
    (hrow : Reloads fs D R s (autoreloadAll fs s.targets s).2) : (s.cycle fs).1.Tells R := by
  refine tells_of_after hok fun n ↦ ?_
  rw [Engine.clock?, ReloadTimes.mem_after_iff (hs.autoreloadAll s.targets).engine.sound]
  constructor
  · rintro ⟨u, hu, hlt⟩
    -- What bears a later time than the clock showed was reloaded since.
    by_cases hnone : ∀ x, R x → x.name ≠ n
    · rw [hrow.kept n hnone] at hu
      exact absurd hlt (Nat.not_lt_of_le (hs.engine.clocked n u hu))
    · push Not at hnone
      exact hnone
  · rintro ⟨x, hx, rfl⟩
    exact hrow.later x hx

/-- A cycle reloads what there is to reload, tells so, and leaves nothing to reload. -/
theorem Sound.reloads_cycle (hs : s.Sound) (hsteady : s.Steady fs (s.Reaches fs)) :
    (s.cycle fs).1.Tells (s.ToReload fs) ∧
      Reloads fs (s.Reaches fs) (s.ToReload fs) s (s.cycle fs).2 ∧
      ∀ x, ¬(s.cycle fs).2.ToReload fs x := by
  have hsub : ∀ x, s.Reaches fs x → x ∈ s.tree.modules := fun x ↦ hs.mem_of_reachedFrom
  have hclosed := hs.closed_of_subset hsub fun x hx c hc ↦ hx.child hc
  have hnames : ∀ name ∈ s.targets, ∀ m, s.tree.module? name = some m → s.Reaches fs m :=
    fun name hname m hm ↦ ⟨name, hname, m, hm, .refl⟩
  obtain ⟨hok, hrow, hleft⟩ := hsteady.autoreloadAll hs hsub hclosed hnames
  have hreloads : Reloads fs (s.Reaches fs) (s.ToReload fs) s
      (Session.autoreloadAll fs s.targets s).2 := hrow.congr fun x ↦ toReload_iff.symm
  refine ⟨tells_cycle hs hok hreloads, ?_, ?_⟩
  · rw [cycle_snd]
    exact hreloads
  · intro x hx
    rw [cycle_snd, toReload_iff, Reaches, hreloads.targets,
      hreloads.reachedFrom_iff hclosed hnames] at hx
    exact ((hleft x hx.1).mp hx.2).2 hx.1

end Session

namespace Session

/-! ## The build -/

variable {fs : FileSystem} {s : Session}

/-- **A cycle is an incremental build**, where reloads are foreseeable. It reloads exactly the
modules that are due and those that depend on them, each once, and tells so; the order and the
repetition of the targets make no difference; and there is nothing left for the next cycle to do. -/
theorem Reached.cycle_incremental (hs : s.Reached) (hsteady : s.Steady fs (s.Reaches fs)) :
    (∀ x, s.ToReload fs x →
      x ∈ s.tree.modules ∧ (s.cycle fs).2.generation x = s.generation x + 1) ∧
    (∀ x ∈ s.tree.modules, ¬s.ToReload fs x →
      (s.cycle fs).2.generation x = s.generation x) ∧
    (s.cycle fs).1.Tells (s.ToReload fs) ∧
    (∀ s' : Session, s'.tree = s.tree → s'.engine = s.engine →
      (∀ n, n ∈ s'.targets ↔ n ∈ s.targets) →
        (∀ x, s'.ToReload fs x ↔ s.ToReload fs x) ∧ (s'.cycle fs).1 = (s.cycle fs).1) ∧
    ((s.cycle fs).2.cycle fs).1 = .unchanged := by
  have hsub : ∀ x, s.Reaches fs x → x ∈ s.tree.modules := fun x ↦ hs.sound.mem_of_reachedFrom
  have hclosed := hs.sound.closed_of_subset hsub fun x hx c hc ↦ hx.child hc
  have hnames : ∀ name ∈ s.targets, ∀ m, s.tree.module? name = some m → s.Reaches fs m :=
    fun name hname m hm ↦ ⟨name, hname, m, hm, .refl⟩
  obtain ⟨htells, hreloads, hleft⟩ := hs.sound.reloads_cycle hsteady
  refine ⟨?_, hreloads.others, htells, ?_, ?_⟩
  · intro x hx
    have hmem := hsub x (toReload_iff.mp hx).1
    exact ⟨hmem, hreloads.once x hmem hx⟩
  · intro s' htree hengine htargets
    have hreload : ∀ x, s'.ToReload fs x ↔ s.ToReload fs x := fun x ↦
      toReload_congr htree hengine htargets
    have hsteady' : s'.Steady fs (s'.Reaches fs) := hsteady.congr htree hengine fun x ↦
      (reaches_congr htree hengine htargets).mp
    -- Both outcomes tell of the same modules.
    have htells' := ((hs.sound.congr htree hengine).reloads_cycle hsteady').1
    rw [funext fun x ↦ propext (hreload x)] at htells'
    exact ⟨hreload, htells'.unique htells⟩
  · have hreaches : ∀ x, (s.cycle fs).2.Reaches fs x → s.Reaches fs x := by
      intro x
      rw [Reaches, hreloads.targets]
      exact (hreloads.reachedFrom_iff hclosed hnames).mp
    have hsteady' := (hreloads.steady hclosed hsteady).congr rfl rfl hreaches
    exact ((hs.sound.cycle fs).reloads_cycle hsteady').1.unique hleft

end Session

/-! ## Two modules -/

namespace Session

/-- A session that watches the tree and has done nothing yet. -/
def pair : Session :=
  ⟨.pair, .new ⟨[⟨true, ["w"]⟩]⟩, .standard, [], 0, ⟨none, none⟩, .new 0⟩

theorem start_pair (terminal : Terminal) :
    Session.start (.pair 1) ⟨none, none⟩ terminal ⟨true, ["w"]⟩ [] .standard =
      .ok { pair with
        floor := terminal.verbosity
        terminal := terminal.log [SourceTree.scanned .pair ⟨["a", "b"], []⟩] } := by
  have hroots : rootsOf (.pair 1) .standard ⟨true, ["w"]⟩ = (⟨[⟨true, ["w"]⟩]⟩, []) := by
    decide +kernel
  have hroot : SourceTree.pair.root = ⟨true, ["w"]⟩ := rfl
  rw [Session.start, FileSystem.scan_pair]
  simp only [bind, Except.bind, hroot, hroots]
  rfl

theorem Reached.pair : pair.Reached :=
  .start (FileSystem.named_pair 1) (start_pair (.new 0))

/-- The session after a first cycle, which has noted the times of the sources and the
dependencies. -/
def waiting : Session :=
  (autoreloadAll (.pair 1) pair.targets pair).2

theorem cycle_pair : (pair.cycle (.pair 1)).2 = waiting :=
  cycle_snd ..

theorem Reached.waiting : waiting.Reached :=
  cycle_pair ▸ .cycle (.pair 1) .pair

theorem eq_of_reaches_waiting {x : Module} (hx : waiting.Reaches (.pair 2) x) :
    x = .upper ∨ x = .lower := by
  have hmodules : waiting.tree.modules = [.upper, .lower] := by decide +kernel
  have hmem := Reached.waiting.sound.mem_of_reachedFrom hx
  rwa [hmodules, List.mem_pair] at hmem

theorem steady_waiting : waiting.Steady (.pair 2) (waiting.Reaches (.pair 2)) := by
  have hchildren : waiting.childrenOf (.pair 2) .upper = [.lower] ∧
      waiting.childrenOf (.pair 2) .lower = [] := by decide +kernel
  refine ⟨?_, ?_, ?_⟩
  · intro x hx c hc
    have hends {y : Module} (hpath : Module.ReachesBy (waiting.childrenOf (.pair 2)) .lower y) :
        y = .lower := by
      rw [Module.ReachesBy, Relation.ReflTransGen.cases_head_iff, hchildren.2] at hpath
      simpa [eq_comm] using hpath
    obtain rfl | rfl := eq_of_reaches_waiting hx
    · rw [hchildren.1, List.mem_singleton] at hc
      subst hc
      exact fun hpath ↦ absurd (hends hpath) (by decide)
    · rw [hchildren.2] at hc
      exact absurd hc List.not_mem_nil
  · intro x p hx hp
    obtain rfl | rfl := eq_of_reaches_waiting hx
    · obtain rfl := Option.some.inj hp
      exact ⟨"import b\n", by decide⟩
    · obtain rfl := Option.some.inj hp
      exact ⟨"", by decide⟩
  · intro x hx
    obtain rfl | rfl := eq_of_reaches_waiting hx <;> decide +kernel

/-- The second source is touched. Both modules are reloaded, since the first remembers that it
depends on the second. -/
theorem waiting_touched :
    waiting.Reached ∧ waiting.engine.dependencies.get? "a" = some [.lower] ∧
      waiting.Steady (.pair 2) (waiting.Reaches (.pair 2)) ∧
      (waiting.cycle (.pair 2)).2.generation .lower = waiting.generation .lower + 1 ∧
      (waiting.cycle (.pair 2)).2.generation .upper = waiting.generation .upper + 1 := by
  have hlower : waiting.ToReload (.pair 2) .lower :=
    .due ⟨"b", by decide +kernel, .lower, by decide +kernel, .refl⟩ (by decide +kernel)
  have hupper : waiting.ToReload (.pair 2) .upper :=
    .child ⟨"a", by decide +kernel, .upper, by decide +kernel, .refl⟩ (by decide +kernel) hlower
  have hbuild := (Reached.waiting.cycle_incremental steady_waiting).1
  exact ⟨.waiting, by decide +kernel, steady_waiting, (hbuild _ hlower).2, (hbuild _ hupper).2⟩

def settled : Session :=
  (autoreloadAll (.pair 2) waiting.targets waiting).2

theorem cycle_waiting : (waiting.cycle (.pair 2)).2 = settled :=
  cycle_snd ..

theorem Reached.settled : settled.Reached :=
  cycle_waiting ▸ .cycle (.pair 2) .waiting

end Session

end ModuleReload
