import ModuleReload.Engine.Basic

/-!
# Walks over the dependencies

Both walks go depth first from a module to its dependencies and visit no name twice in one call, so
they end on every graph, cycles included. Dependencies come before the modules that depend on them.

* `autoreload` reloads a module if its source has changed, if a dependency was reloaded before its
  turn in this call, or if a dependency was reloaded in an earlier call and the module was not
  reloaded since. The first failure ends the walk.
* `isOutdated` only answers whether anything reachable has changed, and ends at the first that has.

The depth of a walk is bounded by the number of modules it can meet (`Run.reach`): each step down
adds a name to the visited ones. The walks recurse on that bound, which they never use up before
all names are visited.
-/

namespace ModuleReload

variable {σ τ : Type}

/-- A run with the names visited in the current call. -/
structure Walk (σ τ : Type) extends Run σ τ where
  visited : List String

namespace Walk

def put (w : Walk σ τ) (r : Run σ τ) : Walk σ τ :=
  { w with toRun := r }

def visiting (w : Walk σ τ) (m : Module) : Walk σ τ :=
  { w with visited := m.name :: w.visited }

/-! ## Reloading what is due -/

/-- Whether a dependency was reloaded after the module that depends on it was. -/
def reloadedSince (mine : Option Tick) : Option Tick → Bool
  | none => false
  | some theirs => mine.all (· < theirs)

/-- Announces a module and when it was last reloaded. -/
def announce (depth : Nat) (m : Module) (mine : Option Tick) (r : Run σ τ) : Run σ τ :=
  let indent := String.ofList (List.replicate (2 * depth) ' ')
  let r := r.say "autoreload" .debug ("-->" ++ indent ++ " " ++ m.name)
  match mine with
  | some t => r.say "autoreload" .debug (m.name ++ " last reloaded at " ++ t.text)
  | none => r

/-- Visits the dependencies of a module in order: whether one of them makes its reload due. -/
def eachChild (visit : Module → Walk σ τ → Except ReloadError Bool × Walk σ τ) (m : Module)
    (mine : Option Tick) : List Module → Bool → Walk σ τ → Except ReloadError Bool × Walk σ τ
  | [], due, w => (.ok due, w)
  | c :: cs, due, w =>
    match visit c w with
    | (.error e, w) => (.error e, w)
    | (.ok reloaded, w) =>
      -- Once the reload is due, nothing is said about the times of later dependencies.
      if due || reloaded then eachChild visit m mine cs true w
      else if reloadedSince mine (w.engine.times.get? c.name) then
        eachChild visit m mine cs true (w.put (w.say "autoreload" .trace
          ("dependency " ++ c.name ++ " of " ++ m.name ++ " was previously reloaded")))
      else eachChild visit m mine cs false w

/-- Visits a module: its dependencies, then its source, and reloads it if that is due. -/
def visit (h : Host σ τ) (tick : Tick) :
    Nat → Nat → Bool → Module → Walk σ τ → Except ReloadError Bool × Walk σ τ
  | 0, _, _, _, w => (.ok false, w)
  | bound + 1, depth, force, m, w =>
    if w.visited.contains m.name then (.ok false, w)
    else
      -- The time is taken on the way down. What happens below does not change it.
      let mine := w.engine.times.get? m.name
      let (children, r) := (announce depth m mine w.toRun).childrenOf h m
      match eachChild (visit h tick bound (depth + 1) false) m mine children false
          ((w.put r).visiting m) with
      | (.error e, w) => (.error e, w)
      | (.ok due, w) =>
        -- The source is looked at whether or not the reload is due already.
        let (stale, r) := w.isStale h m
        if force || due || stale then
          match r.reloadAt h tick m with
          | (some e, r) => (.error e, w.put r)
          | (none, r) => (.ok true, w.put r)
        else (.ok false, w.put r)

/-! ## Asking for change -/

/-- Checks modules in order up to the first that is outdated. -/
def anyChild (check : Module → Walk σ τ → Bool × Walk σ τ) :
    List Module → Walk σ τ → Bool × Walk σ τ
  | [], w => (false, w)
  | c :: cs, w =>
    match check c w with
    | (true, w) => (true, w)
    | (false, w) => anyChild check cs w

/-- Whether a dependency of a module, or else the module itself, has changed. -/
def check (h : Host σ τ) : Nat → Module → Walk σ τ → Bool × Walk σ τ
  | 0, _, w => (false, w)
  | bound + 1, m, w =>
    if w.visited.contains m.name then (false, w)
    else
      let (children, r) := w.childrenOf h m
      match anyChild (check h bound) children ((w.put r).visiting m) with
      | (true, w) => (true, w)
      | (false, w) =>
        let (stale, r) := w.isStale h m
        (stale, w.put r)

end Walk

/-! ## The calls -/

namespace Run

/-- A number of modules that no walk can exceed: the loaded ones, those remembered as dependencies,
and the one that the walk starts from. -/
def reach (h : Host σ τ) (r : Run σ τ) : Nat :=
  h.modules.length + (r.engine.dependencies.entries.flatMap (·.2)).length + 1

/-- Reloads a module if it or anything that it depends on has changed, and all that is due below
it: whether the module itself was reloaded. With `force` it is reloaded in any case. -/
def autoreload (h : Host σ τ) (m : Module) (force : Bool) (r : Run σ τ) :
    Except ReloadError Bool × Run σ τ :=
  let (tick, r) := r.tick
  let r := r.say "autoreload" .debug m.name
  let (result, w) := Walk.visit h tick (r.reach h) 0 force m ⟨r, []⟩
  (result, w.toRun)

/-- Whether a module has changed or, if `recursive` holds, anything that it depends on. -/
def isOutdated (h : Host σ τ) (m : Module) (recursive : Bool) (r : Run σ τ) : Bool × Run σ τ :=
  if recursive then
    let (outdated, w) := Walk.check h (r.reach h) m ⟨r, []⟩
    (outdated, w.toRun)
  else r.isStale h m

end Run

end ModuleReload
