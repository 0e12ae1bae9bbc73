import ModuleReload.Proofs.Engine.Line

/-!
# Engines that are alike

An engine keeps its tables in the order in which their keys came in. Nobody sees that order: an
engine is asked about single modules and sources, and what it lists it sorts. So two engines count
as *alike* (`Engine.Alike`) if they own the same roots, their clocks show the same, and their tables
show the same for each key.

Alike engines answer a request alike, do the same to the host meanwhile, and are alike afterwards
(`Engine.Alike.request`). This goes up along the walk, one lemma for each of its functions, with the
relation carried by two walks side by side. The one place where a table is looked at as a whole is
the bound of a walk (`Run.reach`), which counts entries; and tables that show the same have the same
entries, if in another order (`Table.Alike.perm`).
-/

namespace ModuleReload

/-! ## Tables -/

namespace Table

variable {κ α : Type} [DecidableEq κ] {t u t' u' : Table κ α}

/-- Two tables show the same for each key. -/
def Alike (t u : Table κ α) : Prop :=
  ∀ k, u.get? k = t.get? k

namespace Alike

theorem refl (t : Table κ α) : t.Alike t :=
  fun _ ↦ rfl

theorem insert (ht : t.Alike u) (k : κ) (a : α) : (t.insert k a).Alike (u.insert k a) := by
  intro j
  rw [get?_insert, get?_insert, ht]

theorem erase (ht : t.Alike u) (k : κ) : (t.erase k).Alike (u.erase k) := by
  intro j
  rw [get?_erase, get?_erase, ht]

theorem merge (ht : t.Alike u) (ht' : t'.Alike u') : (t.merge t').Alike (u.merge u') := by
  intro k
  rw [get?_merge, get?_merge, ht, ht']

theorem perm (ht : t.Alike u) : u.entries.Perm t.entries := by
  refine (List.perm_ext_iff_of_nodup (.of_map _ u.nodup) (.of_map _ t.nodup)).mpr ?_
  rintro ⟨k, a⟩
  rw [mem_entries_iff, mem_entries_iff, ht]

theorem size_eq (ht : t.Alike u) : u.size = t.size :=
  ht.perm.length_eq

end Alike

end Table

/-! ## Baselines and times -/

namespace Baselines

variable {b c b' c' : Baselines}

/-- Two tables of baselines show the same for each path. -/
def Alike (b c : Baselines) : Prop :=
  b.seen.Alike c.seen

namespace Alike

theorem lastSeen? (hb : b.Alike c) (p : Path) : c.lastSeen? p = b.lastSeen? p :=
  hb p.components

theorem isNewer (hb : b.Alike c) (fs : FileSystem) (p : Path) :
    c.isNewer fs p = b.isNewer fs p := by
  rw [Baselines.isNewer, Baselines.isNewer, hb.lastSeen?]

theorem refresh (hb : b.Alike c) (fs : FileSystem) (p : Path) :
    (b.refresh fs p).Alike (c.refresh fs p) := by
  rw [Baselines.refresh, Baselines.refresh]
  cases fs.modified? p with
  | none => exact hb
  | some t => exact hb.insert p.components t

theorem merge (hb : b.Alike c) (hb' : b'.Alike c') : (b.merge b').Alike (c.merge c') :=
  Table.Alike.merge hb hb'

end Alike

end Baselines

namespace ReloadTimes

variable {r s r' s' : ReloadTimes}

/-- Two clocks show the same, and have the same times for each module. -/
structure Alike (r s : ReloadTimes) : Prop where
  times : r.times.Alike s.times
  clock : s.clock = r.clock

namespace Alike

theorem get? (hr : r.Alike s) (n : String) : s.get? n = r.get? n :=
  hr.times n

theorem now? (hr : r.Alike s) : s.now? = r.now? := by
  rw [ReloadTimes.now?, ReloadTimes.now?, hr.clock]

theorem record (hr : r.Alike s) (n : String) (t : Tick) : (r.record n t).Alike (s.record n t) :=
  ⟨hr.times.insert n t, hr.clock⟩

theorem merge (hr : r.Alike s) (hr' : r'.Alike s') : (r.merge r').Alike (s.merge s') where
  times := hr.times.merge hr'.times
  clock := by
    rw [ReloadTimes.merge, ReloadTimes.merge, hr.clock, hr'.clock]

theorem namesWhere (hr : r.Alike s) (p : Tick → Bool) : s.namesWhere p = r.namesWhere p := by
  have hperm : (s.namesWhere p).Perm (r.namesWhere p) :=
    (Text.sorted_perm _).trans ((((hr.times.perm.filter _).map _)).trans (Text.sorted_perm _).symm)
  exact hperm.eq_of_pairwise (fun _ _ _ _ hab hba ↦ absurd hba (lt_asymm hab))
    (pairwise_namesWhere s p) (pairwise_namesWhere r p)

end Alike

end ReloadTimes

/-! ## Engines -/

namespace Engine

variable {e e' old old' : Engine}

/-- Two engines own the same roots, their clocks show the same, and their tables show the same for
each key. -/
structure Alike (e e' : Engine) : Prop where
  roots : e'.roots = e.roots
  dependencies : e.dependencies.Alike e'.dependencies
  baselines : e.baselines.Alike e'.baselines
  times : e.times.Alike e'.times

namespace Alike

theorem refl (e : Engine) : e.Alike e :=
  ⟨rfl, .refl _, .refl _, .refl _, rfl⟩

theorem isNewer (he : e.Alike e') (fs : FileSystem) (m : Module) :
    e'.isNewer fs m = e.isNewer fs m := by
  rw [Engine.isNewer, Engine.isNewer]
  cases Dependencies.sourceOf? fs m with
  | none => rfl
  | some p => exact he.baselines.isNewer fs p

theorem look (he : e.Alike e') (fs : FileSystem) (m : Module) :
    (e.look fs m).Alike (e'.look fs m) := by
  refine ⟨he.roots, he.dependencies, ?_, he.times⟩
  rw [Engine.look, Engine.look]
  cases Dependencies.sourceOf? fs m with
  | none => exact he.baselines
  | some p => exact he.baselines.refresh fs p

theorem forgetDependencies (he : e.Alike e') : e.forgetDependencies.Alike e'.forgetDependencies :=
  ⟨he.roots, .refl _, he.baselines, he.times⟩

theorem setRoots (he : e.Alike e') (roots : OwnedRoots) :
    (e.setRoots roots).Alike (e'.setRoots roots) := by
  rw [Engine.setRoots, Engine.setRoots, he.roots]
  split
  · exact he
  · exact ⟨rfl, .refl _, he.baselines, he.times⟩

theorem restore (he : e.Alike e') (hold : old.Alike old') :
    (e.restore old).Alike (e'.restore old') := by
  refine ⟨he.roots, ?_, he.baselines.merge hold.baselines, he.times.merge hold.times⟩
  rw [Engine.restore, Engine.restore, he.roots, hold.roots]
  dsimp only
  split
  · exact he.dependencies.merge hold.dependencies
  · exact he.dependencies

end Alike

end Engine

/-! ## Runs -/

variable {σ τ α : Type} {h : Host σ τ}

/-- Two runs of alike engines with one state of the host and one account. -/
structure Run.Alike (r r' : Run σ τ) : Prop where
  engine : r.engine.Alike r'.engine
  state : r'.state = r.state
  events : r'.events = r.events

/-- One answer, and runs that are alike. -/
structure Run.Agree (p q : α × Run σ τ) : Prop where
  answer : q.1 = p.1
  run : p.2.Alike q.2

theorem Run.Agree.exists_eq {p q : α × Run σ τ} (hpq : Run.Agree p q) :
    ∃ a r r', p = (a, r) ∧ q = (a, r') ∧ r.Alike r' :=
  ⟨p.1, p.2, q.2, rfl, Prod.ext hpq.answer rfl, hpq.run⟩

namespace Run.Alike

variable {r r' : Run σ τ}

theorem start {e e' : Engine} (he : e.Alike e') (state : σ) :
    (Run.start e state : Run σ τ).Alike (.start e' state) :=
  ⟨he, rfl, rfl⟩

theorem log (hr : r.Alike r') (es : List (Event τ)) : (r.log es).Alike (r'.log es) where
  engine := hr.engine
  state := hr.state
  events := congrArg (· ++ es) hr.events

theorem say (hr : r.Alike r') (topic : String) (level : Level) (text : String) :
    (r.say topic level text).Alike (r'.say topic level text) :=
  hr.log _

theorem tick (hr : r.Alike r') : Agree r.tick r'.tick where
  answer := congrArg (· + 1) hr.engine.times.clock
  run := by
    refine ⟨⟨hr.engine.roots, hr.engine.dependencies, hr.engine.baselines, hr.engine.times.times,
      ?_⟩, hr.state, hr.events⟩
    exact congrArg (· + 1) hr.engine.times.clock

theorem childrenOf (hr : r.Alike r') (h : Host σ τ) (m : Module) :
    Agree (r.childrenOf h m) (r'.childrenOf h m) := by
  obtain ⟨children, notices, hfound⟩ : ∃ children notices,
    Dependencies.discover h r.engine.roots r.state m = (children, notices) := ⟨_, _, rfl⟩
  rw [Run.childrenOf, Run.childrenOf, hr.engine.dependencies, hr.engine.roots, hr.state, hfound]
  cases r.engine.dependencies.get? m.name with
  | some known => exact ⟨rfl, hr.log _⟩
  | none =>
    have hengine : Engine.Alike
        { r.engine with dependencies := r.engine.dependencies.insert m.name children }
        { r'.engine with dependencies := r'.engine.dependencies.insert m.name children } :=
      ⟨hr.engine.roots, hr.engine.dependencies.insert m.name children, hr.engine.baselines,
        hr.engine.times⟩
    refine ⟨rfl, Run.Alike.log ?_ _⟩
    exact ⟨hengine, rfl, hr.events⟩

theorem isStale (hr : r.Alike r') (h : Host σ τ) (m : Module) :
    Agree (r.isStale h m) (r'.isStale h m) := by
  rw [isStale_eq, isStale_eq]
  refine ⟨hr.engine.isNewer h.files m, hr.engine.look h.files m, hr.state, ?_⟩
  exact congrArg (· ++ [Event.checked m]) hr.events

theorem reloadAt (hr : r.Alike r') (h : Host σ τ) (t : Tick) (m : Module) :
    Agree (r.reloadAt h t m) (r'.reloadAt h t m) := by
  have hforgotten : Engine.Alike
      { r.engine with dependencies := r.engine.dependencies.erase m.name }
      { r'.engine with dependencies := r'.engine.dependencies.erase m.name } :=
    ⟨hr.engine.roots, hr.engine.dependencies.erase m.name, hr.engine.baselines, hr.engine.times⟩
  obtain ⟨cause, state, hattempt⟩ : ∃ cause state,
    h.reinitialize (h.save r.state m).2 m = (cause, state) := ⟨_, _, rfl⟩
  simp only [Run.reloadAt, Run.say, Run.log, hr.state, hattempt]
  cases cause with
  | some cause => exact ⟨rfl, hforgotten, rfl, by simp [hr.events]⟩
  | none =>
    -- The reload looks at the source, as a check does, and records the tick.
    have hlooked := hforgotten.look h.files m
    exact ⟨rfl, ⟨hlooked.roots, hlooked.dependencies, hlooked.baselines,
      hlooked.times.record m.name t⟩, rfl, by simp [hr.events]⟩

theorem reload (hr : r.Alike r') (h : Host σ τ) (m : Module) :
    Agree (r.reload h m) (r'.reload h m) := by
  have hattempt := hr.tick.run.reloadAt h r.tick.1 m
  have hreload (r : Run σ τ) : r.reload h m = r.tick.2.reloadAt h r.tick.1 m := rfl
  rw [hreload, hreload, hr.tick.answer]
  exact hattempt

theorem reach (hr : r.Alike r') (h : Host σ τ) : r'.reach h = r.reach h := by
  have hperm := hr.engine.dependencies.perm.flatMap_right fun e ↦ e.2
  rw [Run.reach, Run.reach, hperm.length_eq]

end Run.Alike

/-! ## Walks -/

namespace Walk

variable {w w' : Walk σ τ}

/-- Two walks of alike runs that have visited the same. -/
structure Alike (w w' : Walk σ τ) : Prop where
  run : w.toRun.Alike w'.toRun
  visited : w'.visited = w.visited

/-- One answer, and walks that are alike. -/
structure Agree (p q : α × Walk σ τ) : Prop where
  answer : q.1 = p.1
  walk : p.2.Alike q.2

theorem Agree.exists_eq {p q : α × Walk σ τ} (hpq : Agree p q) :
    ∃ a v v', p = (a, v) ∧ q = (a, v') ∧ v.Alike v' :=
  ⟨p.1, p.2, q.2, rfl, Prod.ext hpq.answer rfl, hpq.walk⟩

theorem Alike.put (hw : w.Alike w') {r r' : Run σ τ} (hr : r.Alike r') :
    (w.put r).Alike (w'.put r') :=
  ⟨hr, hw.visited⟩

theorem Alike.visiting (hw : w.Alike w') (m : Module) : (w.visiting m).Alike (w'.visiting m) :=
  ⟨hw.run, congrArg (m.name :: ·) hw.visited⟩

theorem alike_announce {r r' : Run σ τ} (hr : r.Alike r') (depth : Nat) (m : Module)
    (mine : Option Tick) : (announce depth m mine r).Alike (announce depth m mine r') := by
  cases mine with
  | none => exact hr.say _ _ _
  | some t => exact (hr.say _ _ _).say _ _ _

/-- Going through dependencies keeps walks alike if visiting each of them does. -/
theorem Alike.eachChild {visit : Module → Walk σ τ → Except ReloadError Bool × Walk σ τ}
    (hvisit : ∀ c w w', w.Alike w' → Agree (visit c w) (visit c w')) (m : Module)
    (mine : Option Tick) (cs : List Module) (due : Bool) (hw : w.Alike w') :
    Agree (eachChild visit m mine cs due w) (eachChild visit m mine cs due w') := by
  induction cs generalizing due w w' with
  | nil => exact ⟨rfl, hw⟩
  | cons c cs ih =>
    obtain ⟨result, v, v', heq, heq', hv⟩ := (hvisit c w w' hw).exists_eq
    rw [Walk.eachChild, Walk.eachChild, heq, heq']
    cases result with
    | error e => exact ⟨rfl, hv⟩
    | ok reloaded =>
      simp only [hv.run.engine.times.get?]
      split
      · exact ih true hv
      · split
        · exact ih true (hv.put (hv.run.say _ _ _))
        · exact ih false hv

theorem Alike.visit (h : Host σ τ) (t : Tick) (bound depth : Nat) (force : Bool) (m : Module)
    (hw : w.Alike w') :
    Agree (visit h t bound depth force m w) (visit h t bound depth force m w') := by
  induction bound generalizing depth force m w w' with
  | zero => exact ⟨rfl, hw⟩
  | succ bound ih =>
    rw [Walk.visit, Walk.visit, hw.visited, hw.run.engine.times.get?]
    split
    · exact ⟨rfl, hw⟩
    obtain ⟨mine, hmine⟩ : ∃ mine, w.engine.times.get? m.name = mine := ⟨_, rfl⟩
    obtain ⟨children, r, r', heq, heq', hr⟩ :=
      ((alike_announce hw.run depth m mine).childrenOf h m).exists_eq
    obtain ⟨result, v, v', hv, hv', hwalk⟩ := (((hw.put hr).visiting m).eachChild
      (fun c _ _ hw ↦ ih (depth + 1) false c hw) m mine children false).exists_eq
    simp only [hmine, heq, heq', hv, hv']
    cases result with
    | error e => exact ⟨rfl, hwalk⟩
    | ok due =>
      obtain ⟨stale, s, s', hs, hs', hlooked⟩ := (hwalk.run.isStale h m).exists_eq
      obtain ⟨err, u, u', hu, hu', hreload⟩ := (hlooked.reloadAt h t m).exists_eq
      simp only [hs, hs', hu, hu']
      split
      · cases err with
        | some e => exact ⟨rfl, hwalk.put hreload⟩
        | none => exact ⟨rfl, hwalk.put hreload⟩
      · exact ⟨rfl, hwalk.put hlooked⟩

theorem Alike.anyChild {check : Module → Walk σ τ → Bool × Walk σ τ}
    (hcheck : ∀ c w w', w.Alike w' → Agree (check c w) (check c w')) (cs : List Module)
    (hw : w.Alike w') : Agree (anyChild check cs w) (anyChild check cs w') := by
  induction cs generalizing w w' with
  | nil => exact ⟨rfl, hw⟩
  | cons c cs ih =>
    obtain ⟨found, v, v', heq, heq', hv⟩ := (hcheck c w w' hw).exists_eq
    rw [Walk.anyChild, Walk.anyChild, heq, heq']
    cases found with
    | true => exact ⟨rfl, hv⟩
    | false => exact ih hv

theorem Alike.check (h : Host σ τ) (bound : Nat) (m : Module) (hw : w.Alike w') :
    Agree (check h bound m w) (check h bound m w') := by
  induction bound generalizing m w w' with
  | zero => exact ⟨rfl, hw⟩
  | succ bound ih =>
    rw [Walk.check, Walk.check, hw.visited]
    split
    · exact ⟨rfl, hw⟩
    obtain ⟨children, r, r', heq, heq', hr⟩ := (hw.run.childrenOf h m).exists_eq
    obtain ⟨found, v, v', hv, hv', hwalk⟩ :=
      (((hw.put hr).visiting m).anyChild (fun c _ _ hw ↦ ih c hw) children).exists_eq
    simp only [heq, heq', hv, hv']
    cases found with
    | true => exact ⟨rfl, hwalk⟩
    | false =>
      have hlooked := hwalk.run.isStale h m
      exact ⟨hlooked.answer, hwalk.put hlooked.run⟩

end Walk

/-! ## Calls -/

namespace Run.Alike

variable {r r' : Run σ τ}

theorem opening (hr : r.Alike r') : (⟨r, []⟩ : Walk σ τ).Alike ⟨r', []⟩ :=
  ⟨hr, rfl⟩

theorem autoreload (hr : r.Alike r') (h : Host σ τ) (m : Module) (force : Bool) :
    Agree (r.autoreload h m force) (r'.autoreload h m force) := by
  have hticked := hr.tick
  have hsaid := hticked.run.say "autoreload" .debug m.name
  have hvisit :=
    hsaid.opening.visit h r.tick.1 ((r.tick.2.say "autoreload" .debug m.name).reach h) 0
      force m
  simp only [Run.autoreload]
  rw [hticked.answer, hsaid.reach h]
  exact ⟨hvisit.answer, hvisit.walk.run⟩

theorem isOutdated (hr : r.Alike r') (h : Host σ τ) (m : Module) (recursive : Bool) :
    Agree (r.isOutdated h m recursive) (r'.isOutdated h m recursive) := by
  rw [Run.isOutdated, Run.isOutdated, hr.reach h]
  cases recursive with
  | true =>
    have hcheck := hr.opening.check h (r.reach h) m
    exact ⟨hcheck.answer, hcheck.walk.run⟩
  | false => exact hr.isStale h m

end Run.Alike

/-! ## Requests -/

namespace Engine

/-- What an engine answers a request. -/
inductive Answer
  | dependencies (ms : List Module)
  | judged (changed : Bool)
  | reloaded (err : Option ReloadError)
  | autoreloaded (result : Except ReloadError Bool)

def Request.answer (h : Host σ τ) (r : Run σ τ) : Request → Answer
  | childrenOf m => .dependencies (r.childrenOf h m).1
  | isStale m => .judged (r.isStale h m).1
  | isOutdated m recursive => .judged (r.isOutdated h m recursive).1
  | reload m => .reloaded (r.reload h m).1
  | autoreload m force => .autoreloaded (r.autoreload h m force).1

/-- **Alike engines answer alike**, do the same to the host meanwhile, and are alike afterwards. -/
theorem Alike.request {e e' : Engine} (he : e.Alike e') (h : Host σ τ) (state : σ)
    (request : Request) :
    Run.Agree (request.answer h (.start e state), request.run h (.start e state))
      (request.answer h (.start e' state), request.run h (.start e' state)) := by
  have hstart : (Run.start e state : Run σ τ).Alike (.start e' state) := .start he state
  cases request with
  | childrenOf m =>
    have hagree := hstart.childrenOf h m
    exact ⟨congrArg Answer.dependencies hagree.answer, hagree.run⟩
  | isStale m =>
    have hagree := hstart.isStale h m
    exact ⟨congrArg Answer.judged hagree.answer, hagree.run⟩
  | isOutdated m recursive =>
    have hagree := hstart.isOutdated h m recursive
    exact ⟨congrArg Answer.judged hagree.answer, hagree.run⟩
  | reload m =>
    have hagree := hstart.reload h m
    exact ⟨congrArg Answer.reloaded hagree.answer, hagree.run⟩
  | autoreload m force =>
    have hagree := hstart.autoreload h m force
    exact ⟨congrArg Answer.autoreloaded hagree.answer, hagree.run⟩

end Engine

end ModuleReload
