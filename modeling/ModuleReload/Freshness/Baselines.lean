import ModuleReload.FileSystem.Search
import ModuleReload.Table

/-!
# Modification times seen so far

Whether a source is newer than what was loaded is decided by the modification time seen at the last
look at it. Looking is an observation: it moves the baseline to the present time, so that a change
is reported once, by the first look after it. The first look at a path only sets its baseline, and
a path whose time cannot be read keeps the one it has.

Paths are told apart by their components as they are given.
-/

namespace ModuleReload

/-- The modification time seen at the last look at each path. -/
structure Baselines where
  seen : Table (List Component) FileSystem.Instant

namespace Baselines

open FileSystem

def empty : Baselines :=
  ⟨.empty⟩

/-- The time seen at the last look at a path. -/
def lastSeen? (b : Baselines) (p : Path) : Option Instant :=
  b.seen.get? p.components

/-- The baselines after a look at a path, without asking what it showed. -/
def refresh (fs : FileSystem) (b : Baselines) (p : Path) : Baselines :=
  match fs.modified? p with
  | some t => ⟨b.seen.insert p.components t⟩
  | none => b

/-- Whether a look at a path shows a time after its baseline. -/
def isNewer (fs : FileSystem) (b : Baselines) (p : Path) : Bool :=
  match b.lastSeen? p, fs.modified? p with
  | some before, some now => before < now
  | _, _ => false

theorem isNewer_iff {fs : FileSystem} {b : Baselines} {p : Path} :
    b.isNewer fs p = true ↔
      ∃ before now, b.lastSeen? p = some before ∧ fs.modified? p = some now ∧ before < now := by
  rw [isNewer]
  cases b.lastSeen? p <;> cases fs.modified? p <;> simp

/-- A look at a path: whether it shows a change, and the baselines after it. -/
def observe (fs : FileSystem) (b : Baselines) (p : Path) : Bool × Baselines :=
  (b.isNewer fs p, b.refresh fs p)

def forget (b : Baselines) (p : Path) : Baselines :=
  ⟨b.seen.erase p.components⟩

/-- The baselines with those of another table for the paths that have none. -/
def merge (b c : Baselines) : Baselines :=
  ⟨b.seen.merge c.seen⟩

def size (b : Baselines) : Nat :=
  b.seen.size

end Baselines

end ModuleReload
