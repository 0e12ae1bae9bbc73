import ModuleReload.Proofs.Engine.Reached
import ModuleReload.Proofs.Tree.Reload
import ModuleReload.Watch.Session

/-!
# Sessions that have come about

`Session.Reached` holds of the sessions that a new one can become: by cycles and batches of changes
in any order, with files and settings changing in between, and with other modules asked for at any
time. Its tree is sound, its engine is one that has come about, and the engine remembers present
modules as dependencies, which is why a refresh that changes the tree has to make it forget them
(`Session.Reached.sound`).

A cycle is a row of calls, and what each call keeps the cycle keeps
(`Session.autoreloadAll_invariant`).
-/

namespace ModuleReload.Session

variable {fs : FileSystem} {s : Session}

/-! ## Sound sessions -/

/-- What holds of a session however it came about. -/
structure Sound (s : Session) : Prop where
  tree : s.tree.Sound
  engine : s.engine.Reached
  knows : s.tree.Knows s.engine

theorem Sound.log (hs : s.Sound) (ns : List Notice) : (s.log ns).Sound :=
  ⟨hs.tree, hs.engine, hs.knows⟩

theorem Sound.detach (hs : s.Sound) : s.detach.Sound :=
  ⟨hs.tree, hs.engine, hs.knows⟩

theorem Sound.report (hs : s.Sound) (time : TimeOfDay) (outcome : Outcome) :
    (s.report time outcome).Sound := by
  cases outcome <;> exact ⟨hs.tree, hs.engine, hs.knows⟩

/-! ## Calls -/

/-- The run of the engine in which a session reloads what is due for a module. -/
def call (fs : FileSystem) (m : Module) (s : Session) : Run SourceTree Unit :=
  ((Run.start s.engine s.tree).autoreload (s.tree.host fs) m false).2

theorem autoreload_engine (fs : FileSystem) (m : Module) :
    (s.autoreload fs m).2.engine = (s.call fs m).engine := rfl

theorem autoreload_tree (fs : FileSystem) (m : Module) :
    (s.autoreload fs m).2.tree = (s.call fs m).state := rfl

theorem exists_visits (hs : s.Sound) (fs : FileSystem) (m : Module) :
    ∃ ts err w', Visits (s.tree.host fs) (s.engine.times.clock + 1) false [m]
        (Walk.opening (.start s.engine s.tree)) ts err w' ∧
      (s.autoreload fs m).1 =
        answer err (Turn.anyReload (s.tree.host fs) (s.engine.times.clock + 1) ts m.name) ∧
      s.call fs m = w'.toRun := by
  obtain ⟨ts, err, w', hv, heq⟩ := Run.exists_visits (h := s.tree.host fs)
    (r := .start s.engine s.tree) hs.engine.clocked m false
  refine ⟨ts, err, w', hv, ?_⟩
  rw [autoreload, call, heq]
  exact ⟨rfl, rfl⟩

/-- A call for a present module comes to present modules alone, whether or not it fails. -/
theorem exists_visits_present (hs : s.Sound) (fs : FileSystem) {m : Module}
    (hm : m ∈ s.tree.modules) :
    ∃ ts err w', Visits (s.tree.host fs) (s.engine.times.clock + 1) false [m]
        (Walk.opening (.start s.engine s.tree)) ts err w' ∧
      s.call fs m = w'.toRun ∧ ∀ t ∈ ts, t.module ∈ s.tree.modules := by
  obtain ⟨ts, err, w', hv, -, hcall⟩ := exists_visits hs fs m
  refine ⟨ts, err, w', hv, hcall, (SourceTree.knows_of_visits hv hs.knows ?_).2⟩
  exact List.forall_mem_singleton.mpr hm

theorem sameModules_autoreload (hs : s.Sound) (fs : FileSystem) (m : Module) :
    s.tree.SameModules (s.autoreload fs m).2.tree := by
  obtain ⟨ts, err, w', hv, -, hcall⟩ := exists_visits hs fs m
  rw [autoreload_tree, hcall]
  exact SourceTree.sameModules_of_replays hv.replays

theorem Sound.autoreload (hs : s.Sound) {m : Module} (hm : m ∈ s.tree.modules) :
    (s.autoreload fs m).2.Sound := by
  have hsame := sameModules_autoreload hs fs m
  refine ⟨hsame.sound hs.tree, hs.engine.autoreload (s.tree.host fs) s.tree m false, ?_⟩
  obtain ⟨ts, err, w', hv, -, hcall⟩ := exists_visits hs fs m
  have hknows := SourceTree.knows_of_visits hv hs.knows fun n hn ↦
    List.mem_singleton.mp hn ▸ hm
  rw [autoreload_engine, hcall]
  intro n children hn c hc
  rw [hsame.modules]
  exact hknows.1 n children hn c hc

theorem mem_of_module? {name : String} {m : Module} (hm : s.tree.module? name = some m) :
    m ∈ s.tree.modules ∧ m.name = name :=
  ⟨List.mem_of_find?_eq_some hm, by simpa using List.find?_some hm⟩

theorem autoreloadAll_cons_of_none {name : String} (names : List String)
    (hm : s.tree.module? name = none) :
    autoreloadAll fs (name :: names) s = autoreloadAll fs names (s.log [missing name]) := by
  rw [autoreloadAll, hm]

theorem autoreloadAll_cons_of_ok {name : String} {m : Module} {b : Bool} (names : List String)
    (hm : s.tree.module? name = some m) (hok : (s.autoreload fs m).1 = .ok b) :
    autoreloadAll fs (name :: names) s = autoreloadAll fs names (s.autoreload fs m).2 := by
  obtain ⟨result, s', heq⟩ : ∃ result s', s.autoreload fs m = (result, s') := ⟨_, _, rfl⟩
  rw [heq] at hok
  obtain rfl : result = .ok b := hok
  simp only [autoreloadAll, hm, heq]

theorem autoreloadAll_invariant {I : Session → Prop} (hlog : ∀ s ns, I s → I (s.log ns))
    (hcall : ∀ s m, I s → m ∈ s.tree.modules → I (s.autoreload fs m).2) (names : List String)
    (hs : I s) : I (autoreloadAll fs names s).2 := by
  induction names generalizing s with
  | nil => exact hs
  | cons name names ih =>
    rw [autoreloadAll]
    cases hm : s.tree.module? name with
    | none => exact ih (hlog s _ hs)
    | some m =>
      have hafter := hcall s m hs (mem_of_module? hm).1
      obtain ⟨result, s', heq⟩ : ∃ result s', s.autoreload fs m = (result, s') := ⟨_, _, rfl⟩
      rw [heq] at hafter
      simp only [heq]
      cases result with
      | error e => exact hafter
      | ok b => exact ih hafter

theorem cycle_snd (fs : FileSystem) (s : Session) :
    (s.cycle fs).2 = (autoreloadAll fs s.targets s).2 := by
  rw [cycle]
  obtain ⟨err, s', heq⟩ : ∃ err s', autoreloadAll fs s.targets s = (err, s') := ⟨_, _, rfl⟩
  rw [heq]
  cases err with
  | some e => rfl
  | none =>
    dsimp only
    split <;> rfl

theorem Sound.autoreloadAll (hs : s.Sound) (names : List String) :
    (autoreloadAll fs names s).2.Sound :=
  autoreloadAll_invariant (fun _ ns hs ↦ hs.log ns) (fun _ _ hs hm ↦ hs.autoreload hm) names hs

theorem Sound.cycle (hs : s.Sound) (fs : FileSystem) : (s.cycle fs).2.Sound := by
  rw [cycle_snd]
  exact hs.autoreloadAll _

/-! ## Batches of changes -/

theorem Sound.adopt (hs : s.Sound) (fs : FileSystem) (settings : Settings) :
    (s.adopt fs settings).Sound := by
  refine ⟨hs.tree, .restore (.new _) hs.engine, fun n children hn c hc ↦ ?_⟩
  have hdependencies : ((Engine.new (rootsOf fs settings s.tree.root).1).restore
      s.engine.take.1).dependencies.get? n = some children := hn
  rw [Engine.restore] at hdependencies
  dsimp only at hdependencies
  split at hdependencies
  · rw [Table.get?_merge] at hdependencies
    exact hs.knows n children hdependencies c hc
  · simp [Engine.new] at hdependencies

theorem Sound.reloadSettings (hs : s.Sound) (fs : FileSystem) : (s.reloadSettings fs).Sound := by
  rw [Session.reloadSettings]
  obtain ⟨loaded, notices, heq⟩ : ∃ loaded notices,
    Settings.load fs s.environment s.settings.file = (loaded, notices) := ⟨_, _, rfl⟩
  rw [heq]
  cases loaded with
  | ok settings => exact (hs.log notices).adopt fs settings
  | error e => exact ((hs.log notices).log _).detach

theorem Sound.refresh (hs : s.Sound) (hfs : fs.Named) : (s.refresh fs).Sound := by
  have htree := hs.tree.refresh hfs
  have hkeeps := SourceTree.mem_refresh_of_isEmpty fs s.tree
  rw [Session.refresh]
  obtain ⟨changes, tree, notices, heq⟩ : ∃ changes tree notices,
    s.tree.refresh fs = (changes, tree, notices) := ⟨_, _, _, rfl⟩
  rw [heq] at htree hkeeps ⊢
  simp only
  split
  · next hempty =>
    exact ⟨htree, hs.engine, fun n children hn c hc ↦ hkeeps hempty (hs.knows n children hn c hc)⟩
  · refine ⟨htree, hs.engine.forgetDependencies, fun n children hn c hc ↦ ?_⟩
    have hnone : (Table.empty : Dependencies).get? n = some children := hn
    simp at hnone

/-- What a session becomes when it takes up a batch of changes, before the cycle that follows. -/
def takeUp (fs : FileSystem) (changes : PendingChanges) (s : Session) : Session :=
  let s := if s.settingsChanged fs changes then s.reloadSettings fs else s
  if comesOrGoes changes then s.refresh fs else s

theorem apply_eq (fs : FileSystem) (changes : PendingChanges) (s : Session) :
    s.apply fs changes = (s.takeUp fs changes).cycle fs := rfl

theorem Sound.takeUp (hs : s.Sound) (hfs : fs.Named) (changes : PendingChanges) :
    (s.takeUp fs changes).Sound := by
  rw [Session.takeUp]
  split
  · split
    · exact (hs.reloadSettings fs).refresh hfs
    · exact hs.refresh hfs
  · split
    · exact hs.reloadSettings fs
    · exact hs

theorem Sound.apply (hs : s.Sound) (hfs : fs.Named) (changes : PendingChanges) :
    (s.apply fs changes).2.Sound := by
  rw [apply_eq]
  exact (hs.takeUp hfs changes).cycle fs

/-! ## Reached sessions -/

/-- The sessions that a new one can become. -/
inductive Reached : Session → Prop
  | start {fs : FileSystem} (hfs : fs.Named) {environment : Settings.Environment}
      {terminal : Terminal} {root : Path} {entries : List String} {settings : Settings}
      {s : Session}
      (h : Session.start fs environment terminal root entries settings = .ok s) : Reached s
  | cycle (fs : FileSystem) {s : Session} (hs : Reached s) : Reached (s.cycle fs).2
  | apply {fs : FileSystem} (hfs : fs.Named) (changes : PendingChanges) {s : Session}
      (hs : Reached s) : Reached (s.apply fs changes).2
  | report (time : TimeOfDay) (outcome : Outcome) {s : Session} (hs : Reached s) :
      Reached (s.report time outcome)
  /-- Other modules are asked for. -/
  | asked (entries : List String) {s : Session} (hs : Reached s) : Reached { s with entries }

theorem Reached.sound (hs : s.Reached) : s.Sound := by
  induction hs with
  | @start fs hfs environment terminal root entries settings s h =>
    rw [Session.start] at h
    cases hscan : SourceTree.scan fs root with
    | error e => simp [hscan, bind, Except.bind] at h
    | ok scanned =>
      obtain ⟨tree, notices⟩ := scanned
      rw [hscan] at h
      obtain rfl := Except.ok.inj h
      exact ⟨.scan hfs hscan, .new _, fun n children hn ↦ by simp [Engine.new] at hn⟩
  | cycle fs _ ih => exact ih.cycle fs
  | apply hfs changes _ ih => exact ih.apply hfs changes
  | report time outcome _ ih => exact ih.report time outcome
  | asked entries _ ih => exact ⟨ih.tree, ih.engine, ih.knows⟩

end ModuleReload.Session
