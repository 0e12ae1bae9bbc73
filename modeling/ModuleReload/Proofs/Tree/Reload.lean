import ModuleReload.Proofs.Engine.Aftermath
import ModuleReload.Proofs.Tree.Sound

/-!
# Reloads in a tree

A reload in a source tree reads one file again. It counts the generation of that module up and
changes no other record, no module, and nothing if the file cannot be read. So after a call the
generation of each module tells whether the call reloaded it (`SourceTree.record_of_replays`),
and the dependencies that are discovered for a module change with its own record alone.
-/

namespace ModuleReload.SourceTree

variable {fs : FileSystem} {tree tree' : SourceTree} {m x : Module}

/-! ## Reading one source again -/

theorem host_eq (h : tree'.modules = tree.modules) : tree'.host fs = tree.host fs := by
  rw [host, host, h]

theorem attempt_eq (tree₀ : SourceTree) :
    (tree₀.host fs).attempt tree m = reinitialize fs tree m := by
  rw [Host.attempt]
  have hcall : Host.reinitialize (tree₀.host fs) ((tree₀.host fs).save tree m).2 m =
    reinitialize fs tree m := rfl
  rw [hcall]
  obtain ⟨cause, tree', heq⟩ : ∃ cause tree', reinitialize fs tree m = (cause, tree') := ⟨_, _, rfl⟩
  rw [heq]
  cases cause <;> rfl

theorem reinitialize_cases (fs : FileSystem) (tree : SourceTree) {p : Path}
    (hp : m.file = some p) :
    (∃ source, fs.read p = .ok source ∧ reinitialize fs tree m = (none, { tree with
      records := tree.records.modify m.id
        fun r ↦ ⟨Source.declared source, r.generation + 1⟩ })) ∨
    ∃ e cause, fs.read p = .error e ∧ reinitialize fs tree m = (some cause, tree) := by
  cases hread : fs.read p with
  | ok source => exact .inl ⟨source, rfl, by simp only [hp, hread, reinitialize]⟩
  | error e => exact .inr ⟨e, _, rfl, by simp only [hp, hread, reinitialize]; rfl⟩

theorem attempt_fst_eq_none {tree₀ : SourceTree}
    (hread : ∀ p, m.file = some p → ∃ source, fs.read p = .ok source) :
    ((tree₀.host fs).attempt tree m).1 = none := by
  rw [attempt_eq]
  cases hp : m.file with
  | none => simp only [hp, reinitialize]
  | some p =>
    obtain ⟨source, hsource⟩ := hread p hp
    obtain ⟨_, -, heq⟩ | ⟨e, cause, herror, -⟩ := reinitialize_cases fs tree hp
    · rw [heq]
    · rw [hsource] at herror
      simp at herror

/-- The modules and the number of records stay. -/
structure SameModules (tree tree' : SourceTree) : Prop where
  root : tree'.root = tree.root
  modules : tree'.modules = tree.modules
  length : tree'.records.length = tree.records.length

theorem SameModules.refl (tree : SourceTree) : tree.SameModules tree := ⟨rfl, rfl, rfl⟩

theorem SameModules.trans {tree'' : SourceTree} (h : tree.SameModules tree')
    (h' : tree'.SameModules tree'') : tree.SameModules tree'' :=
  ⟨h'.root.trans h.root, h'.modules.trans h.modules, h'.length.trans h.length⟩

theorem SameModules.sound (h : tree.SameModules tree') (ht : tree.Sound) : tree'.Sound where
  names := h.modules ▸ ht.names
  ids := h.modules ▸ ht.ids
  recorded n hn := by
    rw [h.length]
    exact ht.recorded n (h.modules ▸ hn)
  source n hn := by
    rw [h.root]
    exact ht.source n (h.modules ▸ hn)
  files := by
    rw [h.modules]
    exact ht.files

/-- The tree after the source of a module has been read again. -/
def readAgain (fs : FileSystem) (tree : SourceTree) (m : Module) : SourceTree :=
  reinitialize fs tree m |>.2

theorem readAgain_cases (fs : FileSystem) (tree : SourceTree) (m : Module) :
    tree.readAgain fs m = tree ∨ ∃ source, tree.readAgain fs m = { tree with
      records := tree.records.modify m.id
        fun r ↦ ⟨Source.declared source, r.generation + 1⟩ } := by
  rw [readAgain]
  cases hp : m.file with
  | none => exact .inl (by simp only [hp, reinitialize])
  | some p =>
    obtain ⟨source, -, heq⟩ | ⟨e, cause, -, heq⟩ := reinitialize_cases fs tree hp
    · exact .inr ⟨source, congrArg Prod.snd heq⟩
    · exact .inl (congrArg Prod.snd heq)

theorem sameModules_readAgain : tree.SameModules (tree.readAgain fs m) := by
  obtain heq | ⟨source, heq⟩ := readAgain_cases fs tree m
  · rw [heq]
    exact .refl tree
  · rw [heq]
    exact ⟨rfl, rfl, List.length_modify _ _ _⟩

theorem record_readAgain_of_ne (hid : x.id ≠ m.id) :
    (tree.readAgain fs m).record x = tree.record x := by
  obtain heq | ⟨source, heq⟩ := readAgain_cases fs tree m
  · rw [heq]
  · simp [heq, record, Ne.symm hid]

/-- A module that is read again has what its source declares, and is one generation older. -/
theorem record_readAgain_self {p : Path} {source : String} (hp : m.file = some p)
    (hread : fs.read p = .ok source) (hm : m.id < tree.records.length) :
    (tree.readAgain fs m).record m =
      ⟨Source.declared source, (tree.record m).generation + 1⟩ := by
  simp [readAgain, hp, hread, record, List.getElem?_eq_getElem hm, reinitialize]

/-! ## Calls in a tree -/

variable {tree₀ : SourceTree} {tick : Tick} {w w' : Walk SourceTree Unit}
  {ts : List (Turn SourceTree Unit)}

section Turn

variable (fs tree₀ tick)

theorem sameModules_after (t : Turn SourceTree Unit) :
    t.before.state.SameModules (t.after (tree₀.host fs) tick).state := by
  rw [Turn.after_state]
  split
  · exact .refl _
  · rw [attempt_eq]
    exact sameModules_readAgain

/-- In its turn a module is read again or its record stays, and those of all other modules stay. -/
theorem record_after {t : Turn SourceTree Unit} (ht : t.before.state.Sound)
    (hm : t.module ∈ t.before.state.modules) (hx : x ∈ t.before.state.modules) :
    (t.isReload (tree₀.host fs) tick = true → x = t.module → ∃ p source, x.file = some p ∧
      fs.read p = .ok source ∧ (t.after (tree₀.host fs) tick).state.record x =
        ⟨Source.declared source, (t.before.state.record x).generation + 1⟩) ∧
    (¬(t.isReload (tree₀.host fs) tick = true ∧ x = t.module) →
      (t.after (tree₀.host fs) tick).state.record x = t.before.state.record x) := by
  obtain ⟨p, hp, -⟩ := ht.source _ hm
  rw [Turn.isReload_iff, Turn.after_state, attempt_eq]
  constructor
  · rintro ⟨hidle, hnone⟩ rfl
    obtain ⟨source, hread, -⟩ | ⟨e, cause, -, heq⟩ :=
      reinitialize_cases fs t.before.state hp
    · rw [hidle, if_neg (by decide)]
      exact ⟨p, source, hp, hread, record_readAgain_self hp hread (ht.recorded _ hm)⟩
    · rw [heq] at hnone
      simp at hnone
  · intro hnot
    split
    · rfl
    · next hidle =>
      obtain ⟨source, hread, heq⟩ | ⟨e, cause, -, heq⟩ :=
        reinitialize_cases fs t.before.state hp
      · refine record_readAgain_of_ne fun hid ↦ hnot ⟨⟨by simpa using hidle, ?_⟩, ?_⟩
        · rw [heq]
        · exact ht.eq_of_id hx hm hid
      · rw [heq]

end Turn

theorem sameModules_of_replays (hr : Replays (tree₀.host fs) tick w ts w') :
    w.state.SameModules w'.state := by
  induction hr with
  | nil ha => rw [ha.state]; exact .refl _
  | @cons w w' t ts ha _ ih =>
    have hafter := sameModules_after fs tree₀ tick t
    rw [ha.state] at hafter
    exact hafter.trans ih

/-- **What turns do to records.** A module that is reloaded in one of them has what its source
declares and is one generation older, and the records of all others stay. -/
theorem record_of_replays (hr : Replays (tree₀.host fs) tick w ts w') (ht : w.state.Sound)
    (hts : ∀ t ∈ ts, t.module ∈ w.state.modules)
    (hnodup : (ts.map fun t ↦ t.module.name).Nodup) (hx : x ∈ w.state.modules) :
    (Turn.anyReload (tree₀.host fs) tick ts x.name = true → ∃ p source, x.file = some p ∧
      fs.read p = .ok source ∧
      w'.state.record x = ⟨Source.declared source, (w.state.record x).generation + 1⟩) ∧
    (Turn.anyReload (tree₀.host fs) tick ts x.name = false →
      w'.state.record x = w.state.record x) := by
  induction hr with
  | nil ha => simp [Turn.anyReload, ha.state]
  | @cons w w' t ts ha _ ih =>
    rw [← ha.state] at ht hts hx ⊢
    rw [List.forall_mem_cons] at hts
    rw [List.map_cons, List.nodup_cons] at hnodup
    have hafter := sameModules_after fs tree₀ tick t
    obtain ⟨hread, hkept⟩ := record_after fs tree₀ tick ht hts.1 hx
    obtain ⟨hlater, hstays⟩ := ih (hafter.sound ht) (hafter.modules ▸ hts.2) hnodup.2
      (hafter.modules ▸ hx)
    rw [Turn.anyReload_cons]
    by_cases hnow : t.isReload (tree₀.host fs) tick = true ∧ x = t.module
    · obtain ⟨hreload, rfl⟩ := hnow
      have hnone : Turn.anyReload (tree₀.host fs) tick ts t.module.name = false := by
        refine Turn.anyReload_eq_false.mpr fun s hs hname ↦ absurd ?_ hnodup.1
        exact List.mem_map.mpr ⟨s, hs, hname⟩
      rw [hreload, hstays hnone]
      exact ⟨fun _ ↦ hread hreload rfl, by simp⟩
    · have hname : (t.isReload (tree₀.host fs) tick && t.module.name == x.name) = false := by
        rw [← Bool.not_eq_true, Bool.and_eq_true, beq_iff_eq]
        rintro ⟨hreload, hname⟩
        exact hnow ⟨hreload, ht.eq_of_name hx hts.1 hname.symm⟩
      rw [hname, Bool.false_or, ← hkept hnow]
      exact ⟨hlater, hstays⟩

/-! ## Dependencies in a tree -/

/-- What an engine remembers as dependencies are present modules. -/
def Knows (tree : SourceTree) (e : Engine) : Prop :=
  ∀ n children, e.dependencies.get? n = some children → ∀ c ∈ children, c ∈ tree.modules

theorem Knows.childrenOf {e : Engine} (hk : tree.Knows e) {state : SourceTree} {c : Module}
    (hc : c ∈ e.childrenOf (tree.host fs) state m) : c ∈ tree.modules := by
  rw [Engine.childrenOf] at hc
  cases hm : e.dependencies.get? m.name with
  | none =>
    rw [hm] at hc
    exact Dependencies.mem_modules_of_discover hc
  | some children =>
    rw [hm] at hc
    exact hk _ _ hm c hc

/-- A call for a present module comes to present modules alone, and remembers no others. -/
theorem knows_of_visits {force : Bool} {ms : List Module} {err : Option ReloadError}
    (hv : Visits (tree₀.host fs) tick force ms w ts err w') (hk : tree₀.Knows w.engine)
    (hms : ∀ m ∈ ms, m ∈ tree₀.modules) :
    tree₀.Knows w'.engine ∧ ∀ t ∈ ts, t.module ∈ tree₀.modules := by
  have hall := hv.invariant (I := fun v ↦ tree₀.Knows v.engine) (P := (· ∈ tree₀.modules))
    (Q := fun _ _ ↦ True) hk hms (fun _ _ hv ↦ hv) (fun v ns m hv _ _ ↦ ?_) fun t _ hv _ _ ↦ ?_
  · exact ⟨hall.1, fun t ht ↦ (hall.2 t ht).2.1⟩
  · refine ⟨fun n children hn c hc ↦ ?_, trivial, fun c hc ↦ hv.childrenOf hc⟩
    rw [Walk.entering_dependencies_get?] at hn
    split at hn
    · obtain rfl := Option.some.inj hn
      exact hv.childrenOf hc
    · exact hv n children hn c hc
  · intro n children hn c hc
    rw [Turn.after_dependencies_get?] at hn
    split at hn
    · simp at hn
    · exact hv n children hn c hc

/-- The dependencies that a module has once its source is read again. -/
def reread (fs : FileSystem) (roots : OwnedRoots) (tree : SourceTree) (m : Module) : List Module :=
  (Dependencies.discover (tree.host fs) roots (tree.readAgain fs m) m).1

/-- Discovering the dependencies of a module asks the tree for what the module declares. -/
theorem discover_congr {roots : OwnedRoots}
    (h : (tree.record m).declares = (tree'.record m).declares) :
    Dependencies.discover (tree₀.host fs) roots tree m =
      Dependencies.discover (tree₀.host fs) roots tree' m := by
  have hdeclares : (tree₀.host fs).declares tree m = (tree₀.host fs).declares tree' m := h
  rw [Dependencies.discover, Dependencies.discover, hdeclares]

theorem reread_of_replays {roots : OwnedRoots} (hr : Replays (tree₀.host fs) tick w ts w')
    (ht : w.state.Sound) (hts : ∀ t ∈ ts, t.module ∈ w.state.modules)
    (hnodup : (ts.map fun t ↦ t.module.name).Nodup) (hx : x ∈ w.state.modules) :
    reread fs roots w'.state x = reread fs roots w.state x := by
  have hsame := sameModules_of_replays hr
  rw [reread, reread, host_eq hsame.modules]
  refine congrArg Prod.fst (discover_congr ?_)
  obtain ⟨p, hp, -⟩ := ht.source x hx
  obtain ⟨source, hread, -⟩ | ⟨e, cause, hread, heq⟩ := reinitialize_cases fs w.state hp
  · rw [record_readAgain_self hp hread (ht.recorded x hx), record_readAgain_self hp hread
      (hsame.length ▸ ht.recorded x hx)]
  · -- A source that cannot be read has not been read again.
    obtain ⟨source, hread', -⟩ | ⟨e', cause', -, heq'⟩ := reinitialize_cases fs w'.state hp
    · rw [hread] at hread'
      simp at hread'
    obtain ⟨hreloaded, hkept⟩ := record_of_replays hr ht hts hnodup hx
    have hnot : Turn.anyReload (tree₀.host fs) tick ts x.name = false := by
      rw [← Bool.not_eq_true]
      intro hreload
      obtain ⟨q, source, hq, hread', -⟩ := hreloaded hreload
      obtain rfl := Option.some.inj (hp.symm.trans hq)
      rw [hread] at hread'
      simp at hread'
    rw [readAgain, readAgain, heq, heq', hkept hnot]

theorem discover_of_anyReload {roots : OwnedRoots} (hr : Replays (tree₀.host fs) tick w ts w')
    (ht : w.state.Sound) (hmodules : w.state.modules = tree₀.modules)
    (hts : ∀ t ∈ ts, t.module ∈ w.state.modules)
    (hnodup : (ts.map fun t ↦ t.module.name).Nodup) (hx : x ∈ w.state.modules)
    (hreload : Turn.anyReload (tree₀.host fs) tick ts x.name = true) :
    (Dependencies.discover (tree₀.host fs) roots w'.state x).1 = reread fs roots w.state x := by
  obtain ⟨p, source, hp, hread, hrecord⟩ := (record_of_replays hr ht hts hnodup hx).1 hreload
  rw [reread, host_eq hmodules]
  refine congrArg Prod.fst (discover_congr ?_)
  rw [hrecord, record_readAgain_self hp hread (ht.recorded x hx)]

theorem separate (ht : tree.Sound) : (tree.host fs).Separate (· ∈ tree.modules) := by
  intro state x y hx hy hname
  rw [attempt_eq]
  have hid : y.id ≠ x.id := fun hid ↦ hname (congrArg Module.name (ht.eq_of_id hx hy hid.symm))
  exact congrArg SourceRecord.declares (record_readAgain_of_ne hid)

theorem closed (ht : tree.Sound) {e : Engine} (hk : tree.Knows e) (state : SourceTree) :
    Module.Closed (· ∈ tree.modules) (e.childrenOf (tree.host fs) state) where
  children _ _ _ hc := hk.childrenOf hc
  handle _ _ hx hy hname := ht.eq_of_name hx hy hname

end ModuleReload.SourceTree
