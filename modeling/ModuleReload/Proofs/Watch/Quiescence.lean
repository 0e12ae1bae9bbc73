import ModuleReload.Proofs.Watch.Calm

/-!
# Sessions that come to rest

A session whose files do not change should come to rest: from some cycle on, nothing is reloaded. It
does so exactly if its cycles do not pass modules over for ever (`Session.Reached.quiesces_iff`). On
a cycle of dependencies two targets, each with a tick of its own, can go on reloading each other;
without such cycles every session comes to rest (`Session.Reached.quiesces_of_acyclic`).
-/

namespace ModuleReload.Session

variable {fs : FileSystem} {s s' : Session} {D D' : Module → Prop} {m x : Module} {b : Bool}

/-! ## Cycles one after the other -/

def cycles (fs : FileSystem) (s : Session) : Nat → Session
  | 0 => s
  | n + 1 => ((s.cycles fs n).cycle fs).2

/-- One of the calls of a cycle passes some module over. -/
def CyclePassesOver (fs : FileSystem) (s : Session) : Prop :=
  ∃ c ∈ s.calls fs s.targets, c.1.PassesOver fs c.2

theorem cycles_add (fs : FileSystem) (s : Session) (n k : Nat) :
    s.cycles fs (n + k) = (s.cycles fs n).cycles fs k := by
  induction k with
  | zero => rfl
  | succ k ih => rw [Nat.add_succ, cycles, cycles, ih]

theorem Sound.cycles (hs : s.Sound) (fs : FileSystem) (n : Nat) : (s.cycles fs n).Sound := by
  induction n with
  | zero => exact hs
  | succ n ih => exact ih.cycle fs

theorem calls_of_cycle (hok : ∀ e, (s.cycle fs).1 ≠ .failed e) :
    (autoreloadAll fs s.targets s).1 = none ∧
      Calls fs s (s.calls fs s.targets) (s.cycle fs).2 := by
  have hnone : (autoreloadAll fs s.targets s).1 = none := by
    cases heq : autoreloadAll fs s.targets s with
    | mk err s' =>
      cases err with
      | none => rfl
      | some e => exact absurd (by rw [Session.cycle, heq]) (hok e)
  rw [cycle_snd]
  exact ⟨hnone, calls_of_autoreloadAll hnone⟩

section Unfailing

variable (hok : ∀ n e, ((s.cycles fs n).cycle fs).1 ≠ .failed e)

include hok

theorem sameModules_cycles (hs : s.Sound) (n : Nat) :
    s.tree.SameModules (s.cycles fs n).tree := by
  induction n with
  | zero => exact .refl _
  | succ n ih => exact ih.trans ((calls_of_cycle (hok n)).2.sameModules (hs.cycles fs n))

theorem length_outdated_cycles_le (hs : s.Sound) (n : Nat) :
    ((s.cycles fs n).outdated fs).length ≤ (s.outdated fs).length := by
  induction n with
  | zero => exact Nat.le_refl _
  | succ n ih =>
    exact Nat.le_trans ((calls_of_cycle (hok n)).2.length_outdated_le (hs.cycles fs n)) ih

/-- If cycles that pass nothing over come again and again, all targets are in a calm set some
time. -/
theorem exists_calm_cycles (hs : s.Sound)
    (hgood : ∀ n, ∃ k, n ≤ k ∧ ¬(s.cycles fs k).CyclePassesOver fs) :
    ∃ n D, (s.cycles fs n).Calm fs D ∧
      ∀ name ∈ (s.cycles fs n).targets, ∀ m, (s.cycles fs n).tree.module? name = some m → D m := by
  -- By induction on how many modules would have other dependencies if they were reloaded.
  induction hcount : (s.outdated fs).length using Nat.strong_induction_on generalizing s with
  | _ count ih =>
    obtain ⟨k, -, hk⟩ := hgood 0
    have hsound := hs.cycles fs k
    obtain ⟨hnone, hcalls⟩ := calls_of_cycle (hok k)
    have hbefore := length_outdated_cycles_le hok hs k
    by_cases hfewer : ((s.cycles fs (k + 1)).outdated fs).length < count
    · -- The cycle has reloaded one of them. What comes after it is shorter in this sense.
      have hshift := cycles_add fs s (k + 1)
      obtain ⟨n, D, hD, htargets⟩ := ih _ hfewer (s := s.cycles fs (k + 1))
        (fun n e ↦ by rw [← hshift]; exact hok _ e) (hs.cycles fs _)
        (fun n ↦ by
          obtain ⟨j, hj, hpass⟩ := hgood (k + 1 + n)
          refine ⟨j - (k + 1), by omega, ?_⟩
          rw [← hshift, Nat.add_sub_cancel' (by omega)]
          exact hpass) rfl
      rw [← hshift] at hD htargets
      exact ⟨k + 1 + n, D, hD, htargets⟩
    · -- It has not, so it has changed no dependencies.
      have hkept : ((s.cycles fs k).outdated fs).length ≤
          ((s.cycles fs (k + 1)).outdated fs).length := by omega
      have hempty : (s.cycles fs k).Calm fs fun _ ↦ False :=
        ⟨fun _ ↦ False.elim, fun _ ↦ False.elim, fun _ ↦ False.elim⟩
      obtain ⟨D, hD, -, hcs⟩ := hcalls.exists_calm hsound
        (fun c hc hpass ↦ hk ⟨c, hc, hpass⟩) hkept hempty
      refine ⟨k + 1, D, hD, ?_⟩
      intro name hname m hm
      have htargets : (s.cycles fs (k + 1)).targets = (s.cycles fs k).targets :=
        hcalls.targets_eq hsound
      have hmodules : (s.cycles fs (k + 1)).tree.modules = (s.cycles fs k).tree.modules :=
        (hcalls.sameModules hsound).modules
      rw [SourceTree.module?, hmodules] at hm
      obtain ⟨c, hc, rfl⟩ := exists_call hsound hnone (htargets ▸ hname) hm
      exact hcs c hc

end Unfailing

/-- Once all targets are in a calm set, nothing is reloaded any more. -/
theorem Calm.cycles (hD : s.Calm fs D) (hs : s.Sound)
    (htargets : ∀ name ∈ s.targets, ∀ m, s.tree.module? name = some m → D m) (n : Nat) :
    Reloads fs D (fun _ ↦ False) s (s.cycles fs n) ∧ (s.cycles fs n).Calm fs D := by
  induction n with
  | zero => exact ⟨.of_eq rfl rfl rfl, hD⟩
  | succ n ih =>
    obtain ⟨hrow, hcalm⟩ := ih
    obtain ⟨-, hnext, hcalm⟩ := hcalm.cycle (hs.cycles fs n) (hrow.forall_targets htargets)
    exact ⟨(hrow.trans hnext fun _ ↦ False.elim).congr fun _ ↦ or_self_iff, hcalm⟩

/-- A session at rest: no cycle reloads anything any more. -/
def Rests (fs : FileSystem) (s : Session) : Prop :=
  ∀ k, ((s.cycles fs k).cycle fs).1 = .unchanged ∧ ∀ x ∈ s.tree.modules,
    (s.cycles fs (k + 1)).generation x = (s.cycles fs k).generation x

theorem Calm.rests (hD : s.Calm fs D) (hs : s.Sound)
    (htargets : ∀ name ∈ s.targets, ∀ m, s.tree.module? name = some m → D m) : s.Rests fs := by
  intro k
  obtain ⟨hrow, hcalm⟩ := hD.cycles hs htargets k
  constructor
  · exact (hcalm.cycle (hs.cycles fs k) (hrow.forall_targets htargets)).1
  · intro x hx
    rw [(hD.cycles hs htargets (k + 1)).1.others x hx id, hrow.others x hx id]

/-- **When a session comes to rest.** If its files do not change and no reload fails, then from some
cycle on nothing is reloaded exactly if there is no end to the cycles that pass no module over. -/
theorem Reached.quiesces_iff (hs : s.Reached)
    (hok : ∀ n e, ((s.cycles fs n).cycle fs).1 ≠ .failed e) :
    (∃ n, (s.cycles fs n).Rests fs) ↔ ∀ n, ∃ k, n ≤ k ∧ ¬(s.cycles fs k).CyclePassesOver fs := by
  constructor
  · rintro ⟨n, hrest⟩ i
    refine ⟨n + i, Nat.le_add_left i n, ?_⟩
    -- To pass a module over is to reload another one, whose generation then grows.
    rintro ⟨c, hc, x, -, -, y, -, hy⟩
    obtain ⟨hmem, hlt⟩ := (calls_of_cycle (hok (n + i))).2.exists_generation_lt
      (hs.sound.cycles fs _) hc hy
    have hsame : (s.cycles fs (n + i)).tree.modules = (s.cycles fs n).tree.modules := by
      rw [(sameModules_cycles hok hs.sound (n + i)).modules,
        (sameModules_cycles hok hs.sound n).modules]
    have hkept := (hrest i).2 y (hsame ▸ hmem)
    rw [← cycles_add, ← cycles_add] at hkept
    exact absurd hkept (Nat.ne_of_gt hlt)
  · intro hgood
    obtain ⟨n, D, hD, htargets⟩ := exists_calm_cycles hok hs.sound hgood
    exact ⟨n, hD.rests (hs.sound.cycles fs n) htargets⟩

/-- The session whose second source has been touched rests after the cycle that reloads its
modules. -/
theorem waiting_quiesces :
    waiting.Reached ∧ ¬waiting.Rests (.pair 2) ∧
      (∀ n e, ((waiting.cycles (.pair 2) n).cycle (.pair 2)).1 ≠ .failed e) ∧
      ∀ n, ∃ k, n ≤ k ∧ ¬(waiting.cycles (.pair 2) k).CyclePassesOver (.pair 2) := by
  have htells := (Reached.waiting.sound.reloads_cycle steady_waiting).1
  have hrests : (waiting.cycles (.pair 2) 1).Rests (.pair 2) := by
    rw [cycles, cycles, cycle_waiting]
    exact calm_settled.rests Reached.settled.sound (forall_targets_of_pair (by decide +kernel))
  have hok : ∀ n e, ((waiting.cycles (.pair 2) n).cycle (.pair 2)).1 ≠ .failed e := by
    intro n e hfailed
    cases n with
    | zero =>
      rw [cycles] at hfailed
      rwa [hfailed] at htells
    | succ n =>
      rw [Nat.add_comm, cycles_add, (hrests n).1] at hfailed
      cases hfailed
  refine ⟨.waiting, fun hrests ↦ ?_, hok, (Reached.waiting.quiesces_iff hok).mp ⟨1, hrests⟩⟩
  have hsame : ((waiting.cycle (.pair 2)).2).generation .lower = waiting.generation .lower :=
    (hrests 0).2 .lower (by decide +kernel)
  rw [cycle_waiting] at hsame
  exact absurd hsame (by decide +kernel)

/-! ## Graphs without cycles -/

/-- The second session watches the same modules, and each of them has the dependencies that it has
in the first session or those that its source gives. -/
structure Follows (fs : FileSystem) (s s' : Session) : Prop where
  sound : s'.Sound
  modules : s'.tree.modules = s.tree.modules
  children : ∀ x ∈ s.tree.modules,
    s'.childrenOf fs x = s.childrenOf fs x ∨ s'.childrenOf fs x = s.reread fs x
  reread : ∀ x ∈ s.tree.modules, s'.reread fs x = s.reread fs x

namespace Follows

theorem refl (hs : s.Sound) : Follows fs s s :=
  ⟨hs, rfl, fun _ _ ↦ .inl rfl, fun _ _ ↦ rfl⟩

theorem autoreload (h : Follows fs s s') (hm : m ∈ s'.tree.modules)
    (hok : (s'.autoreload fs m).1 = .ok b) : Follows fs s (s'.autoreload fs m).2 where
  sound := h.sound.autoreload hm
  modules := (sameModules_autoreload h.sound fs m).modules.trans h.modules
  children x hx := by
    have hx' : x ∈ s'.tree.modules := h.modules ▸ hx
    rw [childrenOf_autoreload h.sound hm hok hx', h.reread x hx]
    split
    · exact .inr rfl
    · exact h.children x hx
  reread x hx := by
    rw [reread_autoreload h.sound hm hok (h.modules ▸ hx), h.reread x hx]

theorem acyclic (h : Follows fs s s')
    (hacyclic : ∀ x, ¬Relation.TransGen
      (fun a c ↦ c ∈ s.childrenOf fs a ∨ c ∈ s.reread fs a) x x)
    (hx : x ∈ s'.tree.modules) :
    ¬Relation.TransGen (fun a c ↦ c ∈ s'.childrenOf fs a) x x := by
  have hclosed := h.sound.closed fs
  have hedge {a c : Module} (ha : a ∈ s'.tree.modules) (hc : c ∈ s'.childrenOf fs a) :
      c ∈ s.childrenOf fs a ∨ c ∈ s.reread fs a := by
    rcases h.children a (h.modules ▸ ha) with hold | hnew
    · exact .inl (hold ▸ hc)
    · exact .inr (hnew ▸ hc)
  have hpath {y : Module} (hy : Relation.TransGen (fun a c ↦ c ∈ s'.childrenOf fs a) x y) :
      y ∈ s'.tree.modules ∧
        Relation.TransGen (fun a c ↦ c ∈ s.childrenOf fs a ∨ c ∈ s.reread fs a) x y := by
    induction hy with
    | single hc => exact ⟨hclosed.children x hx _ hc, .single (hedge hx hc)⟩
    | tail _ hc ih => exact ⟨hclosed.children _ ih.1 _ hc, .tail ih.2 (hedge ih.1 hc)⟩
  intro hloop
  exact hacyclic x (hpath hloop).2

end Follows

/-- **Without cycles of dependencies a session comes to rest**, if its files do not change and no
reload fails. -/
theorem Reached.quiesces_of_acyclic (hs : s.Reached)
    (hok : ∀ n e, ((s.cycles fs n).cycle fs).1 ≠ .failed e)
    (hacyclic : ∀ x, ¬Relation.TransGen
      (fun a c ↦ c ∈ s.childrenOf fs a ∨ c ∈ s.reread fs a) x x) :
    ∃ n, (s.cycles fs n).Rests fs := by
  have hrow (n : Nat) (hn : Follows fs s (s.cycles fs n)) :=
    (calls_of_cycle (hok n)).2.forall_of_invariant
      hn (fun u ns hu ↦ ⟨hu.sound.log ns, hu.modules, hu.children, hu.reread⟩)
      fun u m b hu hm hok ↦ hu.autoreload hm hok
  have hfollows (n : Nat) : Follows fs s (s.cycles fs n) := by
    induction n with
    | zero => exact .refl hs.sound
    | succ n ih => exact (hrow n ih).1
  have hgood : ∀ n, ∃ k, n ≤ k ∧ ¬(s.cycles fs k).CyclePassesOver fs := by
    intro n
    refine ⟨n, Nat.le_refl n, ?_⟩
    rintro ⟨c, hc, hpass⟩
    obtain ⟨hu, hm, b, hb⟩ := (hrow n (hfollows n)).2 c hc
    exact not_passesOver_of_acyclic hu.sound hm hb (fun x hx ↦ hu.acyclic hacyclic hx) hpass
  obtain ⟨n, D, hD, htargets⟩ := exists_calm_cycles hok hs.sound hgood
  exact ⟨n, hD.rests (hs.sound.cycles fs n) htargets⟩

end ModuleReload.Session
