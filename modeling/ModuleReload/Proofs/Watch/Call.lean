import ModuleReload.Proofs.Watch.Reached

/-!
# What a call of a session does

A call that comes to a result is known from the modules that it reloads. Each of them is one
generation older afterwards, bears the new tick, and has the dependencies that its source gives; all
else that a session sees of its modules stays as it was.
-/

namespace ModuleReload.Session

variable {fs : FileSystem} {s s' : Session} {m x : Module} {b : Bool}

/-! ## What a session sees -/

/-- The dependencies of a module, as a call would find them. -/
def childrenOf (fs : FileSystem) (s : Session) (m : Module) : List Module :=
  s.engine.childrenOf (s.tree.host fs) s.tree m

/-- The dependencies that a module has once its source is read again. -/
def reread (fs : FileSystem) (s : Session) (m : Module) : List Module :=
  s.tree.reread fs s.engine.roots m

/-- Whether the source of a module is newer than its baseline, or a dependency was reloaded and the
module was not reloaded since. -/
def isDue (fs : FileSystem) (s : Session) (m : Module) : Bool :=
  s.engine.isDue fs m (s.childrenOf fs m)

def generation (s : Session) (m : Module) : Nat :=
  (s.tree.record m).generation

/-- The modules that a call reloads, in this order. -/
def reloads (fs : FileSystem) (m : Module) (s : Session) : List Module :=
  Event.reloads (s.call fs m).events

theorem childrenOf_congr (fs : FileSystem) (htree : s'.tree = s.tree)
    (hengine : s'.engine = s.engine) : s'.childrenOf fs = s.childrenOf fs := by
  funext x
  rw [childrenOf, childrenOf, htree, hengine]

theorem Sound.closed (hs : s.Sound) (fs : FileSystem) :
    Module.Closed (· ∈ s.tree.modules) (s.childrenOf fs) :=
  SourceTree.closed hs.tree hs.knows s.tree

theorem mem_of_mem_reloads (hs : s.Sound) (hm : m ∈ s.tree.modules) (hx : x ∈ s.reloads fs m) :
    x ∈ s.tree.modules := by
  obtain ⟨ts, err, w', hv, hcall, hts⟩ := exists_visits_present hs fs hm
  rw [reloads, hcall, hv.reloads_eq] at hx
  obtain ⟨t, ht, rfl⟩ := List.mem_map.mp hx
  exact hts t (List.mem_filter.mp ht).1

/-! ## Calls that come to a result -/

theorem exists_visits_of_ok (hs : s.Sound) (hm : m ∈ s.tree.modules)
    (hok : (s.autoreload fs m).1 = .ok b) :
    ∃ ts w', Visits (s.tree.host fs) (s.engine.times.clock + 1) false [m]
        (Walk.opening (.start s.engine s.tree)) ts none w' ∧
      s.call fs m = w'.toRun ∧
      ∀ t ∈ ts, t.module ∈ s.tree.modules ∧ t.children = s.childrenOf fs t.module := by
  obtain ⟨ts, err, w', hv, hanswer, hcall⟩ := exists_visits hs fs m
  cases err with
  | some e =>
    rw [hanswer] at hok
    simp [answer] at hok
  | none =>
    refine ⟨ts, w', hv, hcall, (hv.found (SourceTree.separate hs.tree) ?_ ?_).2⟩
    · exact hs.closed fs
    · exact List.forall_mem_singleton.mpr hm

/-- The modules that a call reloads are those that one of its turns reloads. -/
theorem mem_reloads_iff (hs : s.Sound) {ts : List (Turn SourceTree Unit)}
    {w' : Walk SourceTree Unit} {err : Option ReloadError}
    (hv : Visits (s.tree.host fs) (s.engine.times.clock + 1) false [m]
      (Walk.opening (.start s.engine s.tree)) ts err w')
    (hcall : s.call fs m = w'.toRun) (hts : ∀ t ∈ ts, t.module ∈ s.tree.modules)
    (hx : x ∈ s.tree.modules) : x ∈ s.reloads fs m ↔
      Turn.anyReload (s.tree.host fs) (s.engine.times.clock + 1) ts x.name = true := by
  rw [reloads, hcall, hv.reloads_eq, List.mem_map, Turn.anyReload_iff]
  constructor
  · rintro ⟨t, ht, rfl⟩
    obtain ⟨ht, hreload⟩ := List.mem_filter.mp ht
    exact ⟨t, ht, hreload, rfl⟩
  · rintro ⟨t, ht, hreload, hname⟩
    exact ⟨t, List.mem_filter.mpr ⟨ht, hreload⟩, hs.tree.eq_of_name (hts t ht) hx hname⟩

theorem childrenOf_autoreload (hs : s.Sound) (hm : m ∈ s.tree.modules)
    (hok : (s.autoreload fs m).1 = .ok b) (hx : x ∈ s.tree.modules) :
    (s.autoreload fs m).2.childrenOf fs x =
      if x ∈ s.reloads fs m then s.reread fs x else s.childrenOf fs x := by
  obtain ⟨ts, w', hv, hcall, hts⟩ := exists_visits_of_ok hs hm hok
  have hmodules : ∀ t ∈ ts, t.module ∈ s.tree.modules := fun t ht ↦ (hts t ht).1
  have hend : w'.engine.childrenOf (s.tree.host fs) w'.state x =
      if Turn.anyReload (s.tree.host fs) (s.engine.times.clock + 1) ts x.name = true then
        (Dependencies.discover (s.tree.host fs) s.engine.roots w'.state x).1
      else s.childrenOf fs x := by
    refine hv.childrenOf_end (SourceTree.separate hs.tree) ?_ ?_ rfl hx
    · exact hs.closed fs
    · exact List.forall_mem_singleton.mpr hm
  rw [childrenOf, SourceTree.host_eq (sameModules_autoreload hs fs m).modules, autoreload_engine,
    autoreload_tree, hcall, hend]
  by_cases hreload : x ∈ s.reloads fs m
  · have hany := (mem_reloads_iff hs hv hcall hmodules hx).mp hreload
    rw [if_pos hreload, if_pos hany]
    exact SourceTree.discover_of_anyReload hv.replays hs.tree rfl hmodules hv.nodup hx hany
  · rw [if_neg hreload, if_neg fun hany ↦
      hreload ((mem_reloads_iff hs hv hcall hmodules hx).mpr hany)]

theorem reread_autoreload (hs : s.Sound) (hm : m ∈ s.tree.modules)
    (hok : (s.autoreload fs m).1 = .ok b) (hx : x ∈ s.tree.modules) :
    (s.autoreload fs m).2.reread fs x = s.reread fs x := by
  obtain ⟨ts, w', hv, hcall, hts⟩ := exists_visits_of_ok hs hm hok
  rw [reread, autoreload_engine, autoreload_tree, hcall, hv.replays.roots_eq]
  exact SourceTree.reread_of_replays hv.replays hs.tree (fun t ht ↦ (hts t ht).1) hv.nodup hx

theorem generation_autoreload (hs : s.Sound) (hm : m ∈ s.tree.modules)
    (hok : (s.autoreload fs m).1 = .ok b) (hx : x ∈ s.tree.modules) :
    (s.autoreload fs m).2.generation x =
      if x ∈ s.reloads fs m then s.generation x + 1 else s.generation x := by
  obtain ⟨ts, w', hv, hcall, hts⟩ := exists_visits_of_ok hs hm hok
  have hmodules : ∀ t ∈ ts, t.module ∈ s.tree.modules := fun t ht ↦ (hts t ht).1
  obtain ⟨honce, hkept⟩ :=
    SourceTree.record_of_replays hv.replays hs.tree hmodules hv.nodup hx
  rw [generation, autoreload_tree, hcall]
  by_cases hreload : x ∈ s.reloads fs m
  · obtain ⟨_, _, _, _, hrecord⟩ := honce ((mem_reloads_iff hs hv hcall hmodules hx).mp hreload)
    rw [if_pos hreload, hrecord]
    rfl
  · rw [if_neg hreload, hkept]
    · rfl
    rw [← Bool.not_eq_true, ← mem_reloads_iff hs hv hcall hmodules hx]
    exact hreload

theorem times_autoreload (hs : s.Sound) (fs : FileSystem) (m : Module) (n : String) :
    (s.autoreload fs m).2.engine.times.get? n =
      if n ∈ (s.reloads fs m).map Module.name then some (s.engine.times.clock + 1)
      else s.engine.times.get? n := by
  obtain ⟨ts, err, w', hv, -, hcall⟩ := exists_visits hs fs m
  rw [autoreload_engine, reloads, hcall, hv.replays.times_get?]
  by_cases hreload : n ∈ (Event.reloads w'.events).map Module.name
  · rw [if_pos hreload, if_pos (hv.mem_reloads_iff.mp hreload)]
  · rw [if_neg hreload, if_neg fun hany ↦ hreload (hv.mem_reloads_iff.mpr hany)]
    rfl

theorem clock_autoreload (hs : s.Sound) (fs : FileSystem) (m : Module) :
    (s.autoreload fs m).2.engine.times.clock = s.engine.times.clock + 1 := by
  obtain ⟨ts, err, w', hv, -, hcall⟩ := exists_visits hs fs m
  rw [autoreload_engine, hcall, hv.replays.clock_eq]
  rfl

theorem isNewer_autoreload_eq_false (hs : s.Sound) (hx : s.engine.isNewer fs x = false) :
    (s.autoreload fs m).2.engine.isNewer fs x = false := by
  obtain ⟨ts, err, w', hv, -, hcall⟩ := exists_visits hs fs m
  rw [autoreload_engine, hcall]
  exact hv.replays.isNewer_eq_false hx

/-- A call leaves a module behind a dependency if it has reloaded the dependency alone, or neither
of them and the module was behind before. -/
theorem isBehind_autoreload_iff (hs : s.Sound) (hm : m ∈ s.tree.modules) (hx : x ∈ s.tree.modules)
    {c : Module} (hc : c ∈ s.tree.modules) :
    (s.autoreload fs m).2.engine.isBehind x c = true ↔
      x ∉ s.reloads fs m ∧ (c ∈ s.reloads fs m ∨ s.engine.isBehind x c = true) := by
  obtain ⟨ts, err, w', hv, hcall, hts⟩ := exists_visits_present hs fs hm
  rw [mem_reloads_iff hs hv hcall hts hx, mem_reloads_iff hs hv hcall hts hc, autoreload_engine,
    hcall, hv.replays.isBehind_iff hs.engine.lt_succ_clock, Bool.not_eq_true]
  rfl

theorem targets_autoreload (hs : s.Sound) (fs : FileSystem) (m : Module) :
    (s.autoreload fs m).2.targets = s.targets := by
  rw [targets, targets, SourceTree.names, (sameModules_autoreload hs fs m).modules]
  rfl

end ModuleReload.Session
