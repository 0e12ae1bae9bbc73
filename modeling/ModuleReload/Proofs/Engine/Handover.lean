import ModuleReload.Proofs.Engine.Alike

/-!
# Handing over and changing the roots

When the roots change, an engine can be told so, or be replaced by a new one that takes over what it
remembered. The two ways go through different code: the one drops the dependencies in place, the
other moves everything out, merges each table into an empty one, and lets go of the dependencies if
the roots differ. They come to the same (`Engine.handOver_indistinguishable`).

What they come to is told by what can be seen from outside. A user of an engine keeps it on a
`Bench`, beside what has been taken out of engines so far, and gives one `Order` after the other.
What is seen (`observe`) are the answers and errors, the account with the events of modules, the
state of the host, and everything that can be read off the engine (`Engine.view`). An order keeps
benches alike and shows the same on both (`Order.alike`), so a list of orders does
(`Bench.Alike.observe_eq`).
-/

namespace ModuleReload.Engine

variable {σ τ : Type}

/-! ## What can be read off an engine -/

/-- What an engine shows without being asked to do anything. -/
structure View where
  roots : OwnedRoots
  clock? : Option Tick
  lastReload? : String → Option Tick
  reloadedSince : Tick → List String
  reloadedAfter : Option Tick → List String
  lastSeen? : Path → Option FileSystem.Instant
  remembered? : String → Option (List Module)
  /-- The numbers of remembered lists of dependencies, baselines, and times. -/
  sizes : Nat × Nat × Nat

def view (e : Engine) : View where
  roots := e.roots
  clock? := e.clock?
  lastReload? := e.times.get?
  reloadedSince := e.times.since
  reloadedAfter := e.times.after
  lastSeen? := e.baselines.lastSeen?
  remembered? := e.dependencies.get?
  sizes := (e.dependencies.size, e.baselines.size, e.times.size)

theorem Alike.view_eq {e e' : Engine} (he : e.Alike e') : e'.view = e.view := by
  have hsize : e'.baselines.size = e.baselines.size := Table.Alike.size_eq he.baselines
  rw [view, view, he.roots, clock?, clock?, he.times.now?, funext he.times.get?,
    funext he.baselines.lastSeen?, funext he.dependencies, he.dependencies.size_eq, hsize,
    ReloadTimes.size, ReloadTimes.size, he.times.times.size_eq]
  congr 1
  · exact funext fun t ↦ he.times.namesWhere _
  · exact funext fun mark ↦ he.times.namesWhere _

/-! ## Orders -/

/-- An engine in use, and what has been taken out of engines and not been dropped, the latest
first. -/
structure Bench where
  engine : Engine
  taken : List Engine

/-- What can be done with an engine in use, and what can happen around it. Every request is for a
host of its own, with its own table of modules and its own files. -/
inductive Order (σ τ : Type)
  | request (h : Host σ τ) (request : Request)
  | setRoots (roots : OwnedRoots)
  | forgetDependencies
  | take
  /-- A new engine is put in the place of the one in use. -/
  | renew (roots : OwnedRoots)
  /-- The engine is given what has been taken out before. -/
  | giveBack (index : Nat)
  /-- The engine is given what has been taken out elsewhere. -/
  | restore (old : Engine)
  | change (f : σ → σ)

/-- What an order leads to. -/
structure Effect (σ τ : Type) where
  answer : Option Answer
  events : List (Event τ)
  state : σ
  bench : Bench

def Order.effect (b : Bench) (state : σ) : Order σ τ → Effect σ τ
  | request h q =>
    let r := q.run h (.start b.engine state)
    ⟨some (q.answer h (.start b.engine state)), r.events, r.state, { b with engine := r.engine }⟩
  | setRoots roots => ⟨none, [], state, { b with engine := b.engine.setRoots roots }⟩
  | forgetDependencies => ⟨none, [], state, { b with engine := b.engine.forgetDependencies }⟩
  | take => ⟨none, [], state, ⟨b.engine.take.2, b.engine.take.1 :: b.taken⟩⟩
  | renew roots => ⟨none, [], state, { b with engine := .new roots }⟩
  | giveBack index =>
    match b.taken[index]? with
    | some old => ⟨none, [], state, ⟨b.engine.restore old, b.taken.eraseIdx index⟩⟩
    | none => ⟨none, [], state, b⟩
  | restore old => ⟨none, [], state, { b with engine := b.engine.restore old }⟩
  | change f => ⟨none, [], f state, b⟩

/-- What is seen of the effect of an order. -/
structure Observation (σ τ : Type) where
  answer : Option Answer
  events : List (Event τ)
  state : σ
  engine : View
  taken : List View

def Effect.observation (f : Effect σ τ) : Observation σ τ :=
  ⟨f.answer, f.events, f.state, f.bench.engine.view, f.bench.taken.map view⟩

/-- What is seen when orders are carried out one after the other. -/
def observe : List (Order σ τ) → Bench → σ → List (Observation σ τ)
  | [], _, _ => []
  | o :: os, b, state =>
    (o.effect b state).observation :: observe os (o.effect b state).bench (o.effect b state).state

/-! ## Alike benches -/

/-- Two benches hold alike engines, also among what has been taken. -/
structure Bench.Alike (b b' : Bench) : Prop where
  engine : b.engine.Alike b'.engine
  taken : List.Forall₂ Engine.Alike b.taken b'.taken

/-- Two effects with one answer, one account and one state of the host, and with alike benches. -/
structure Effect.Alike (f f' : Effect σ τ) : Prop where
  answer : f'.answer = f.answer
  events : f'.events = f.events
  state : f'.state = f.state
  bench : f.bench.Alike f'.bench

theorem Bench.Alike.put {b b' : Bench} (hb : b.Alike b') {e e' : Engine} (he : e.Alike e') :
    Bench.Alike { b with engine := e } { b' with engine := e' } :=
  ⟨he, hb.taken⟩

section

variable {taken taken' : List Engine}

theorem map_view_eq (hall : List.Forall₂ Engine.Alike taken taken') :
    taken'.map view = taken.map view := by
  induction hall with
  | nil => rfl
  | cons he _ ih => rw [List.map_cons, List.map_cons, he.view_eq, ih]

/-- In each place, two lists of alike engines have alike engines or none, and stay alike without
them. -/
theorem alike_at (hall : List.Forall₂ Engine.Alike taken taken') (index : Nat) :
    (taken[index]? = none ∧ taken'[index]? = none) ∨
    ∃ old old', taken[index]? = some old ∧ taken'[index]? = some old' ∧ old.Alike old' ∧
      List.Forall₂ Engine.Alike (taken.eraseIdx index) (taken'.eraseIdx index) := by
  induction hall generalizing index with
  | nil => exact .inl ⟨rfl, rfl⟩
  | @cons old old' _ _ he hall ih =>
    cases index with
    | zero => exact .inr ⟨old, old', rfl, rfl, he, hall⟩
    | succ index =>
      obtain hnone | ⟨old, old', hold, hold', halike, hrest⟩ := ih index
      · exact .inl hnone
      · exact .inr ⟨old, old', hold, hold', halike, .cons he hrest⟩

end

theorem Effect.Alike.observation_eq {f f' : Effect σ τ} (hf : f.Alike f') :
    f'.observation = f.observation := by
  rw [observation, observation, hf.answer, hf.events, hf.state, hf.bench.engine.view_eq,
    map_view_eq hf.bench.taken]

/-- **An order has the same effect on alike benches.** -/
theorem Order.alike {b b' : Bench} (hb : b.Alike b') (state : σ) (o : Order σ τ) :
    (o.effect b state).Alike (o.effect b' state) := by
  cases o with
  | request h q =>
    have hagree := hb.engine.request h state q
    exact ⟨congrArg some hagree.answer, hagree.run.events, hagree.run.state,
      hb.put hagree.run.engine⟩
  | setRoots roots => exact ⟨rfl, rfl, rfl, hb.put (hb.engine.setRoots roots)⟩
  | forgetDependencies => exact ⟨rfl, rfl, rfl, hb.put hb.engine.forgetDependencies⟩
  | take =>
    refine ⟨rfl, rfl, rfl, ?_, .cons hb.engine hb.taken⟩
    rw [Order.effect, Order.effect, Engine.take, Engine.take, hb.engine.roots]
    exact .refl _
  | renew roots => exact ⟨rfl, rfl, rfl, hb.put (.refl _)⟩
  | giveBack index =>
    obtain ⟨hnone, hnone'⟩ | ⟨old, old', hold, hold', halike, hrest⟩ := alike_at hb.taken index
    · simp only [Order.effect, hnone, hnone']
      exact ⟨rfl, rfl, rfl, hb⟩
    · simp only [Order.effect, hold, hold']
      exact ⟨rfl, rfl, rfl, hb.engine.restore halike, hrest⟩
  | restore old => exact ⟨rfl, rfl, rfl, hb.put (hb.engine.restore (.refl old))⟩
  | change f => exact ⟨rfl, rfl, rfl, hb⟩

/-- **Nothing that is done tells alike benches apart.** -/
theorem Bench.Alike.observe_eq {b b' : Bench} (hb : b.Alike b') (orders : List (Order σ τ))
    (state : σ) : observe orders b' state = observe orders b state := by
  induction orders generalizing b b' state with
  | nil => rfl
  | cons o orders ih =>
    have heffect := o.alike hb state
    rw [observe, observe, heffect.observation_eq, heffect.state, ih heffect.bench]

/-! ## Both ways -/

/-- A new engine that takes over what an old one remembered is like the old one with its roots
changed. -/
theorem setRoots_alike_restore (e : Engine) (roots : OwnedRoots) :
    (e.setRoots roots).Alike ((new roots).restore e.take.1) := by
  have hbaselines : e.baselines.Alike (Baselines.empty.merge e.baselines) :=
    fun p ↦ Table.get?_merge _ _ p
  have htimes : e.times.Alike (ReloadTimes.empty.merge e.times) :=
    ⟨fun n ↦ Table.get?_merge _ _ n, Nat.zero_max _⟩
  rw [Engine.setRoots]
  by_cases hsame : roots = e.roots
  · -- The lists of dependencies were gathered for these very roots, and are taken over.
    rw [if_pos hsame]
    refine ⟨hsame, fun n ↦ ?_, hbaselines, htimes⟩
    rw [Engine.restore, Engine.take, Engine.new]
    dsimp only
    rw [if_pos hsame.symm, Table.get?_merge, Table.get?_empty, Option.none_or]
  · rw [if_neg hsame]
    refine ⟨rfl, fun n ↦ ?_, hbaselines, htimes⟩
    rw [Engine.restore, Engine.take, Engine.new]
    dsimp only
    rw [if_neg fun hroots ↦ hsame hroots.symm]

/-- **Handing over is changing the roots.** A new engine with certain roots that takes over what
another one remembered shows the same as that one does once it has been given these roots: the same
clock, times, baselines and dependencies. Whatever is done from then on, with any hosts and with any
changes to them, it answers the same, fails for the same reasons, and does the same in the same
order. What is left of the other one keeps its roots, and has neither a tick nor an entry. -/
theorem handOver_indistinguishable (e : Engine) (roots : OwnedRoots) :
    ((new roots).restore e.take.1).view = (e.setRoots roots).view ∧
    (∀ {σ τ : Type} (orders : List (Order σ τ)) (taken : List Engine) (state : σ),
      observe orders ⟨(new roots).restore e.take.1, taken⟩ state =
        observe orders ⟨e.setRoots roots, taken⟩ state) ∧
    e.take.2.roots = e.roots ∧ e.take.2.clock? = none ∧ e.take.2.view.sizes = (0, 0, 0) := by
  have halike := setRoots_alike_restore e roots
  refine ⟨halike.view_eq, fun orders taken state ↦ ?_, rfl, rfl, rfl⟩
  have hbench : Bench.Alike ⟨e.setRoots roots, taken⟩ ⟨(new roots).restore e.take.1, taken⟩ :=
    ⟨halike, List.forall₂_same.mpr fun old _ ↦ .refl old⟩
  exact hbench.observe_eq orders state

end ModuleReload.Engine
