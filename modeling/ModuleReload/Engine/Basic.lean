import ModuleReload.Dependencies.Discovery
import ModuleReload.Freshness.Baselines
import ModuleReload.Freshness.Clock

/-!
# The reload engine

An engine remembers, between calls, the dependencies of modules, the modification times of their
sources and when they were reloaded. Its operations act on a `Run`: the engine, the state of the
host, and an account of what has been done so far. The account is a list of events. It tells which
modules were looked at, saved, reinitialized and restored, in this order, and holds the notices
between them; so it is both what the user reads (`Event.notices`) and what can be said about a call
once it is over.
-/

namespace ModuleReload

variable {σ τ : Type}

/-! ## Events -/

/-- Something that happens in a call of the engine. -/
inductive Event (τ : Type)
  | said (n : Notice)
  /-- The dependencies of a module were asked for, and these were found. -/
  | asked (m : Module) (children : List Module)
  /-- The source of a module was looked at. -/
  | checked (m : Module)
  /-- A module is about to be reinitialized, and the host saved something or nothing. -/
  | saved (m : Module) (snapshot : Option τ)
  | reinitialized (m : Module)
  /-- The reinitialization of a module failed. -/
  | failed (m : Module)
  /-- A module was reinitialized, and the host got back what it had saved. -/
  | restored (m : Module) (snapshot : Option τ)
  deriving Repr

/-- The notices among events. -/
def Event.notices (es : List (Event τ)) : List Notice :=
  es.filterMap fun
    | .said n => some n
    | _ => none

/-- The reinitialization of a module failed. -/
structure ReloadError where
  module : String
  /-- The host's reason. -/
  cause : String
  deriving DecidableEq, Repr

/-- The wording of a failed reload, without its cause. -/
def ReloadError.message (e : ReloadError) : String :=
  "failed to reload \x60" ++ e.module ++ "\x60"

/-! ## Engines and runs -/

/-- What is remembered between calls. -/
structure Engine where
  roots : OwnedRoots
  dependencies : Dependencies
  baselines : Baselines
  times : ReloadTimes

/-- An engine that owns the given roots and remembers nothing. -/
def Engine.new (roots : OwnedRoots) : Engine :=
  ⟨roots, .empty, .empty, .empty⟩

/-- An engine at work for a host in some state, and its account so far. -/
structure Run (σ τ : Type) where
  engine : Engine
  state : σ
  events : List (Event τ)

namespace Run

def start (e : Engine) (state : σ) : Run σ τ :=
  ⟨e, state, []⟩

def log (r : Run σ τ) (es : List (Event τ)) : Run σ τ :=
  { r with events := r.events ++ es }

def say (r : Run σ τ) (topic : String) (level : Level) (text : String) : Run σ τ :=
  r.log [.said ⟨topic, level, text⟩]

/-! ## Dependencies and staleness -/

/-- The dependencies of a module, discovered once and remembered until the module is reloaded. -/
def childrenOf (h : Host σ τ) (m : Module) (r : Run σ τ) : List Module × Run σ τ :=
  match r.engine.dependencies.get? m.name with
  | some children => (children, r.log [.asked m children])
  | none =>
    let (children, notices) := Dependencies.discover h r.engine.roots r.state m
    let dependencies := r.engine.dependencies.insert m.name children
    (children, { r with engine := { r.engine with dependencies } }.log
      (.asked m children :: notices.map .said))

/-- Looks at the source of a module: whether it has changed since the last look. A module without
source has not. -/
def isStale (h : Host σ τ) (m : Module) (r : Run σ τ) : Bool × Run σ τ :=
  let r := r.log [.checked m]
  match Dependencies.sourceOf? h.files m with
  | none => (false, r)
  | some source =>
    let (newer, baselines) := r.engine.baselines.observe h.files source
    (newer, { r with engine := { r.engine with baselines } })

/-! ## Reloading one module -/

/-- The engine after a module has been reinitialized at a tick: it bears the tick, and the present
time of its source is its baseline. -/
def noteReload (h : Host σ τ) (tick : Tick) (m : Module) (e : Engine) : Engine :=
  { e with
    times := e.times.record m.name tick
    baselines := match Dependencies.sourceOf? h.files m with
      | some source => e.baselines.refresh h.files source
      | none => e.baselines }

/-- Reinitializes a module between saving and restoring what its host wants to keep. Its
dependencies are forgotten first, so that they are discovered anew even if this fails. -/
def reloadAt (h : Host σ τ) (tick : Tick) (m : Module) (r : Run σ τ) :
    Option ReloadError × Run σ τ :=
  let r := r.say "reload" .always ("reloading " ++ m.name)
  let (snapshot, state) := h.save r.state m
  let engine := { r.engine with dependencies := r.engine.dependencies.erase m.name }
  match h.reinitialize state m with
  -- A module that failed keeps its time, and its source its baseline.
  | (some cause, state) =>
    (some ⟨m.name, cause⟩, (⟨engine, state, r.events⟩ : Run σ τ).log [.saved m snapshot, .failed m])
  | (none, state) =>
    let state := h.restore state m snapshot
    (none, (⟨noteReload h tick m engine, state, r.events⟩ : Run σ τ).log
      [.saved m snapshot, .reinitialized m, .restored m snapshot])

/-- Advances the clock. -/
def tick (r : Run σ τ) : Tick × Run σ τ :=
  let (tick, times) := r.engine.times.tick
  (tick, { r with engine := { r.engine with times } })

/-- Reloads one module and nothing that depends on it. -/
def reload (h : Host σ τ) (m : Module) (r : Run σ τ) : Option ReloadError × Run σ τ :=
  let (tick, r) := r.tick
  r.reloadAt h tick m

end Run

end ModuleReload
