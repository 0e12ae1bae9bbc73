import ModuleReload.Notice
import ModuleReload.Watch.Signal

/-!
# Waiting until changes have come to rest

Saving a file often changes it several times in a row, and one edit may touch several files. A
debouncer gathers the changes that signals tell of and gives them away as one batch, when none of
them was changed for a while (`Debouncer.debounce`) and the batch before is long enough ago
(`Debouncer.cooldown`).

Times are in milliseconds from some beginning. A signal starts the wait anew only if it changes
what is pending.
-/

namespace ModuleReload

/-- A time or a span of time in milliseconds. -/
abbrev Milliseconds := Nat

/-- Changes that wait to be acted on. -/
structure Debouncer where
  pending : PendingChanges
  /-- When the pending changes were last changed, since the last batch. -/
  lastEvent : Option Milliseconds
  /-- When the last batch was given away. -/
  lastBatch : Option Milliseconds
  /-- How long the pending changes have to rest. -/
  debounce : Milliseconds

namespace Debouncer

/-- How long one batch comes after another at least. -/
def cooldown : Milliseconds := 800

/-- How long to sleep when nothing is to be waited for: a day. -/
def idle : Milliseconds := 86400000

/-- A debouncer for which nothing has happened yet. -/
def new (debounce : Milliseconds) : Debouncer :=
  ⟨.empty, none, none, debounce⟩

/-- The debouncer with another time of rest. -/
def setDebounce (d : Debouncer) (debounce : Milliseconds) : Debouncer :=
  { d with debounce }

/-! ## Gathering -/

/-- Tells what a change does to what was pending for its file. -/
def heard (p : Path) (old : Option Change) (c : Change) : Notice :=
  let event := match old with
    | none => "event " ++ c.label
    | some .removed => "restore removed->" ++ c.label
    | some .modified => "upgrade modified->removed"
    | some .created => "discard created+removed"
  ⟨"watch", .debug, event ++ ": " ++ p.text⟩

/-- Puts a change of one file on top of what is pending for it. -/
def note (now : Milliseconds) (d : Debouncer) (p : Path) (c : Change) :
    Debouncer × List Notice :=
  let old := d.pending.get? p
  let new := c.after old
  if new = old then (d, [])
  else ({ d with pending := d.pending.set p new, lastEvent := some now }, [heard p old c])

def noteAll (now : Milliseconds) : Debouncer → List (Path × Change) → Debouncer × List Notice
  | d, [] => (d, [])
  | d, (p, c) :: changes =>
    let (d, notices) := d.note now p c
    let (d, more) := noteAll now d changes
    (d, notices ++ more)

def hear (fs : FileSystem) (now : Milliseconds) (s : Signal) (d : Debouncer) :
    Debouncer × List Notice :=
  noteAll now d (s.changes fs)

/-! ## Giving away -/

/-- Whether a time has passed since a moment. -/
def hasPassed (span now since : Milliseconds) : Bool :=
  span ≤ now - since

/-- Whether there is a batch to give away. -/
def isReady (now : Milliseconds) (d : Debouncer) : Bool :=
  d.lastEvent.any (hasPassed d.debounce now) && d.lastBatch.all (hasPassed cooldown now) &&
    !d.pending.isEmpty

/-- Gives away all pending changes if they are ready. -/
def take (now : Milliseconds) (d : Debouncer) : Option PendingChanges × Debouncer :=
  if d.isReady now then
    (some d.pending, { d with pending := .empty, lastEvent := none, lastBatch := some now })
  else (none, d)

/-- How long to sleep until there may be a batch. It is never nothing. -/
def sleep (now : Milliseconds) (d : Debouncer) : Milliseconds :=
  match d.lastEvent with
  | none => idle
  | some event =>
    -- Differences of times do not go below nothing.
    let rest := d.debounce - (now - event)
    let cooling := match d.lastBatch with
      | some batch => cooldown - (now - batch)
      | none => 0
    max (max rest cooling) 1

theorem take_of_not_ready {now : Milliseconds} {d : Debouncer} (h : d.isReady now = false) :
    d.take now = (none, d) := by
  rw [take, if_neg (by simp [h])]

end Debouncer

end ModuleReload
