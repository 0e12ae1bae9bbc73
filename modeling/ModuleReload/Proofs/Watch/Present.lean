import ModuleReload.Proofs.Tree.Dropped
import ModuleReload.Proofs.Watch.Quiescence

/-!
# Handles on present modules

An engine remembers dependencies as handles, and a tree lets go of the objects behind them when
files come and go. What keeps the two together is that a session makes its engine forget all
dependencies whenever a refresh has changed the tree, and that nothing else changes the modules of
the tree. So every handle that is remembered is the one that the tree has for its name now
(`Session.Current`), and every module that a cycle reinitializes is present
(`Session.Sound.present_of_attempt`).

An object that has been dropped is never taken up again: its identity is not given to another
module, and its record stays as it is in all that the session becomes (`Session.Later.dropped`).
-/

namespace ModuleReload

namespace Session

variable {fs : FileSystem} {s s' : Session} {m x : Module} {i : Nat} {r : SourceRecord}

/-! ## What is remembered -/

/-- Each handle that the engine remembers as a dependency is the one that the tree has for its
name. -/
def Current (s : Session) : Prop :=
  ∀ n children, s.engine.dependencies.get? n = some children →
    ∀ c ∈ children, s.tree.module? c.name = some c

theorem Sound.current (hs : s.Sound) : s.Current :=
  fun n children hn c hc ↦ hs.tree.module?_eq (hs.knows n children hn c hc)

/-! ## What is reinitialized -/

/-- A call for a present module reinitializes present modules alone, whether or not it fails. -/
theorem mem_of_mem_attempts (hs : s.Sound) (hm : m ∈ s.tree.modules)
    (hx : x ∈ Event.attempts (s.call fs m).events) : x ∈ s.tree.modules := by
  obtain ⟨ts, err, w', hv, hcall, hts⟩ := exists_visits_present hs fs hm
  rw [hcall, hv.attempts_eq] at hx
  obtain ⟨t, ht, rfl⟩ := List.mem_map.mp hx
  exact hts t (List.mem_filter.mp ht).1

/-- A sound session with the modules of another one. -/
structure Watches (s t : Session) : Prop where
  sound : t.Sound
  modules : t.tree.modules = s.tree.modules

theorem Watches.log (ht : s.Watches s') (ns : List Notice) : s.Watches (s'.log ns) :=
  ⟨ht.sound.log ns, ht.modules⟩

theorem Watches.autoreload (ht : s.Watches s') (hm : m ∈ s'.tree.modules) :
    s.Watches (s'.autoreload fs m).2 :=
  ⟨ht.sound.autoreload hm, (sameModules_autoreload ht.sound fs m).modules.trans ht.modules⟩

theorem modules_cycle (hs : s.Sound) (fs : FileSystem) :
    (s.cycle fs).2.tree.modules = s.tree.modules := by
  have hrow : s.Watches (autoreloadAll fs s.targets s).2 := autoreloadAll_invariant
    (fun _ ns ht ↦ ht.log ns) (fun _ _ ht hm ↦ ht.autoreload hm) s.targets ⟨hs, rfl⟩
  rw [cycle_snd]
  exact hrow.modules

/-- What writing and each call keeps holds of all sessions that make the calls of a row, also if the
last one fails. -/
theorem forall_calls {I : Session → Prop} (hlog : ∀ s ns, I s → I (s.log ns))
    (hcall : ∀ s m, I s → m ∈ s.tree.modules → I (s.autoreload fs m).2) (names : List String)
    (hs : I s) : ∀ c ∈ s.calls fs names, I c.1 ∧ c.2 ∈ c.1.tree.modules := by
  induction names generalizing s with
  | nil => simp [calls]
  | cons name names ih =>
    rw [calls]
    cases hm : s.tree.module? name with
    | none => exact ih (hlog s _ hs)
    | some m =>
      have hmem := (mem_of_module? hm).1
      have hafter := hcall s m hs hmem
      obtain ⟨result, s₁, heq⟩ : ∃ result s₁, s.autoreload fs m = (result, s₁) := ⟨_, _, rfl⟩
      rw [heq] at hafter
      simp only [heq]
      rw [List.forall_mem_cons]
      refine ⟨⟨hs, hmem⟩, ?_⟩
      cases result with
      | error e => simp
      | ok b => exact ih hafter

/-- **Whatever a cycle reinitializes is present**: it is what the tree has for its name when the
cycle begins, and when the call is made. -/
theorem Sound.present_of_attempt (hs : s.Sound) (names : List String) {c : Session × Module}
    (hc : c ∈ s.calls fs names) :
    c.1.Current ∧ ∀ x ∈ Event.attempts (c.1.call fs c.2).events,
      s.tree.module? x.name = some x ∧ c.1.tree.module? x.name = some x := by
  obtain ⟨⟨hsound, hmodules⟩, hm⟩ := forall_calls (I := s.Watches) (fun _ ns ht ↦ ht.log ns)
    (fun _ _ ht hm ↦ ht.autoreload hm) names ⟨hs, rfl⟩ c hc
  refine ⟨hsound.current, fun x hx ↦ ?_⟩
  have hmem := mem_of_mem_attempts hsound hm hx
  exact ⟨hs.tree.module?_eq (hmodules ▸ hmem), hsound.tree.module?_eq hmem⟩

/-! ## What is dropped -/

/-- What a session becomes, one thing after the other. -/
inductive Later : Session → Session → Prop
  | refl (s : Session) : Later s s
  | cycle (fs : FileSystem) {s s' : Session} (hs : Later s s') : Later s (s'.cycle fs).2
  | apply {fs : FileSystem} (hfs : fs.Named) (changes : PendingChanges) {s s' : Session}
      (hs : Later s s') : Later s (s'.apply fs changes).2
  | report (time : TimeOfDay) (outcome : Outcome) {s s' : Session} (hs : Later s s') :
      Later s (s'.report time outcome)
  | asked (entries : List String) {s s' : Session} (hs : Later s s') : Later s { s' with entries }

theorem dropped_autoreload (hs : s.Sound) (hd : s.tree.Dropped i r) (hm : m ∈ s.tree.modules) :
    (s.autoreload fs m).2.tree.Dropped i r := by
  obtain ⟨ts, err, w', hv, hcall, hts⟩ := exists_visits_present hs fs hm
  rw [autoreload_tree, hcall]
  exact SourceTree.Dropped.of_replays hd hv.replays hts

theorem dropped_cycle (hs : s.Sound) (hd : s.tree.Dropped i r) (fs : FileSystem) :
    (s.cycle fs).2.tree.Dropped i r := by
  rw [cycle_snd]
  exact (autoreloadAll_invariant (I := fun t ↦ t.Sound ∧ t.tree.Dropped i r)
    (fun t ns ht ↦ ⟨ht.1.log ns, ht.2⟩)
    (fun t m ht hm ↦ ⟨ht.1.autoreload hm, dropped_autoreload ht.1 ht.2 hm⟩) s.targets ⟨hs, hd⟩).2

theorem tree_refresh (fs : FileSystem) (s : Session) :
    (s.refresh fs).tree = (s.tree.refresh fs).2.1 := by
  rw [Session.refresh]
  obtain ⟨changes, tree, notices, heq⟩ : ∃ changes tree notices,
    s.tree.refresh fs = (changes, tree, notices) := ⟨_, _, _, rfl⟩
  rw [heq]
  simp only
  split <;> rfl

theorem tree_reloadSettings (fs : FileSystem) (s : Session) :
    (s.reloadSettings fs).tree = s.tree := by
  rw [Session.reloadSettings]
  obtain ⟨loaded, notices, heq⟩ : ∃ loaded notices,
    Settings.load fs s.environment s.settings.file = (loaded, notices) := ⟨_, _, rfl⟩
  rw [heq]
  cases loaded with
  | ok settings => rfl
  | error e => rfl

theorem tree_takeUp (fs : FileSystem) (changes : PendingChanges) (s : Session) :
    (s.takeUp fs changes).tree = s.tree ∨ (s.takeUp fs changes).tree = (s.tree.refresh fs).2.1 := by
  rw [takeUp]
  split
  · split
    · exact .inr (by rw [tree_refresh, tree_reloadSettings])
    · exact .inr (tree_refresh fs s)
  · split
    · exact .inl (tree_reloadSettings fs s)
    · exact .inl rfl

theorem dropped_takeUp (hd : s.tree.Dropped i r) (fs : FileSystem) (changes : PendingChanges) :
    (s.takeUp fs changes).tree.Dropped i r := by
  rcases tree_takeUp fs changes s with heq | heq
  · rw [heq]
    exact hd
  · rw [heq]
    exact hd.refresh fs

theorem dropped_of_gone (hs : s.Sound) {changes : PendingChanges} (hm : m ∈ s.tree.modules)
    (hgone : m ∉ (s.takeUp fs changes).tree.modules) :
    (s.takeUp fs changes).tree.Dropped m.id (s.tree.record m) := by
  rcases tree_takeUp fs changes s with heq | heq
  · rw [heq] at hgone
    exact absurd hm hgone
  · rw [heq] at hgone ⊢
    exact SourceTree.dropped_refresh hs.tree hm hgone

/-- **What has been dropped stays so.** -/
theorem Later.dropped (hl : Later s s') (hs : s.Sound) (hd : s.tree.Dropped i r) :
    s'.Sound ∧ s'.tree.Dropped i r := by
  induction hl with
  | refl => exact ⟨hs, hd⟩
  | cycle fs _ ih =>
    obtain ⟨hs', hd'⟩ := ih hs hd
    exact ⟨hs'.cycle fs, dropped_cycle hs' hd' fs⟩
  | apply hfs changes _ ih =>
    obtain ⟨hs', hd'⟩ := ih hs hd
    refine ⟨hs'.apply hfs changes, ?_⟩
    rw [apply_eq]
    exact dropped_cycle (hs'.takeUp hfs changes) (dropped_takeUp hd' _ changes) _
  | report time outcome _ ih =>
    obtain ⟨hs', hd'⟩ := ih hs hd
    exact ⟨hs'.report time outcome, by cases outcome <;> exact hd'⟩
  | asked entries _ ih =>
    obtain ⟨hs', hd'⟩ := ih hs hd
    exact ⟨⟨hs'.tree, hs'.engine, hs'.knows⟩, hd'⟩

/-! ## No handle outlives its module -/

/-- **A session reloads present modules alone.** Each handle that its engine remembers is what the
tree has for its name. So is each module that a cycle reinitializes, be it the cycle that comes next
or the one that follows a batch of changes; and the calls of these cycles find no other handles
remembered. A module that goes with a batch of changes is never reinitialized again, and its
identity is never that of another one, whatever becomes of the session, and be it that a module of
its name and path comes back. -/
theorem Reached.reloads_present (hs : s.Reached) :
    s.Current ∧
    (∀ fs, ∀ c ∈ s.calls fs s.targets, c.1.Current ∧
      ∀ x ∈ Event.attempts (c.1.call fs c.2).events,
        s.tree.module? x.name = some x ∧ c.1.tree.module? x.name = some x) ∧
    (∀ fs : FileSystem, fs.Named → ∀ changes, (s.takeUp fs changes).Current ∧
      (∀ c ∈ (s.takeUp fs changes).calls fs (s.takeUp fs changes).targets, c.1.Current ∧
        ∀ x ∈ Event.attempts (c.1.call fs c.2).events,
          (s.takeUp fs changes).tree.module? x.name = some x ∧ c.1.tree.module? x.name = some x) ∧
      ∀ m ∈ s.tree.modules, m ∉ (s.apply fs changes).2.tree.modules →
        ∀ s', (s.apply fs changes).2.Later s' →
          (∀ x ∈ s'.tree.modules, x.id ≠ m.id) ∧ s'.generation m = s.generation m) := by
  refine ⟨hs.sound.current, fun fs c hc ↦ hs.sound.present_of_attempt _ hc, fun fs hfs changes ↦ ?_⟩
  have htaken := hs.sound.takeUp hfs changes
  refine ⟨htaken.current, fun c hc ↦ htaken.present_of_attempt _ hc, fun m hm hgone s' hl ↦ ?_⟩
  rw [apply_eq] at hgone hl
  rw [modules_cycle htaken] at hgone
  -- The object is dropped before the cycle, which leaves it dropped.
  have hdropped := dropped_cycle htaken (dropped_of_gone hs.sound hm hgone) fs
  obtain ⟨-, hrecord, habsent⟩ := hl.dropped (htaken.cycle fs) hdropped
  refine ⟨habsent, ?_⟩
  have hsame : s'.tree.record m = s.tree.record m := by
    rw [SourceTree.record, hrecord, Option.getD_some]
  rw [generation, generation, hsame]

end Session

/-! ## A module that goes -/

namespace Session

/-- The second source is renamed, and with its old name goes the module that the first remembers as
its dependency. -/
theorem waiting_gone :
    let changes : PendingChanges :=
      (Table.empty.insert ⟨true, ["w", "b.py"]⟩ .removed).insert ⟨true, ["w", "c.py"]⟩ .created
    waiting.Reached ∧ waiting.engine.dependencies.get? "a" = some [.lower] ∧
      (waiting.apply .renamed changes).2.tree.modules = [.upper, .other] ∧
      ∀ s', (waiting.apply .renamed changes).2.Later s' →
        (∀ x ∈ s'.tree.modules, x.id ≠ 1) ∧ s'.generation .lower = 0 := by
  intro changes
  have hnamed := FileSystem.proper_renamed.named
  have htaken : (waiting.takeUp .renamed changes).tree.modules = [.upper, .other] := by
    have hcomes : comesOrGoes changes = true := by decide
    have hunchanged : waiting.settingsChanged .renamed changes = false := by decide +kernel
    have htree : waiting.tree = .pair := by decide +kernel
    rw [takeUp, if_pos hcomes, hunchanged, if_neg Bool.false_ne_true, tree_refresh, htree,
      FileSystem.refresh_renamed.2]
  have hmodules : (waiting.apply .renamed changes).2.tree.modules = [.upper, .other] := by
    rw [apply_eq, modules_cycle (Reached.waiting.sound.takeUp hnamed changes), htaken]
  have hgone : .lower ∉ (waiting.apply .renamed changes).2.tree.modules := by
    rw [hmodules]
    decide
  have hpresent := Reached.waiting.reloads_present.2.2 .renamed hnamed changes
  refine ⟨.waiting, by decide +kernel, hmodules, fun s' hl ↦ ?_⟩
  have hlower : .lower ∈ waiting.tree.modules := by decide +kernel
  obtain ⟨habsent, hgeneration⟩ := hpresent.2.2 .lower hlower hgone s' hl
  exact ⟨habsent, hgeneration.trans (by decide +kernel)⟩

end Session

end ModuleReload
