import ModuleReload.Table
import ModuleReload.Text.Order

/-!
# The reload clock

Reloads are ordered by a counter, because the time of day cannot tell apart what happens in one
instant. Every call that may reload advances the clock once, and all modules reloaded in the call
bear its tick. Ticks are counted from 1, so a clock at 0 has handed out none.
-/

namespace ModuleReload

/-- A point on the reload clock. -/
abbrev Tick := Nat

/-- The written form of a tick. -/
def Tick.text (t : Tick) : String :=
  s!"t{t}"

/-- The reload clock, and the tick of the last reload of each module. -/
structure ReloadTimes where
  times : Table String Tick
  clock : Nat

namespace ReloadTimes

/-- Nothing has been reloaded and no tick handed out. -/
def empty : ReloadTimes :=
  ⟨.empty, 0⟩

/-- The next tick, which is later than all before it. -/
def tick (r : ReloadTimes) : Tick × ReloadTimes :=
  (r.clock + 1, { r with clock := r.clock + 1 })

def now? (r : ReloadTimes) : Option Tick :=
  if r.clock = 0 then none else some r.clock

/-- Notes that a module was reloaded. -/
def record (r : ReloadTimes) (name : String) (t : Tick) : ReloadTimes :=
  { r with times := r.times.insert name t }

/-- When a module was last reloaded. -/
def get? (r : ReloadTimes) (name : String) : Option Tick :=
  r.times.get? name

/-- The names whose tick passes a test, in ascending order. -/
def namesWhere (r : ReloadTimes) (p : Tick → Bool) : List String :=
  Text.sorted ((r.times.entries.filter fun e ↦ p e.2).map Prod.fst)

/-- The modules reloaded at a tick or later. -/
def since (r : ReloadTimes) (t : Tick) : List String :=
  r.namesWhere (t ≤ ·)

/-- The modules reloaded later than a mark; all of them for no mark. -/
def after (r : ReloadTimes) (mark : Option Tick) : List String :=
  r.namesWhere fun t ↦ mark.all (· < t)

/-- The times with those of another table for the modules that have none, on a clock that is
behind neither. -/
def merge (r s : ReloadTimes) : ReloadTimes :=
  ⟨r.times.merge s.times, max r.clock s.clock⟩

def size (r : ReloadTimes) : Nat :=
  r.times.size

end ReloadTimes

end ModuleReload
