import ModuleReload.Notice

/-!
# Status blocks

While a tree is watched, the outcome of each cycle is shown as a block of its own: the time of day,
a mark, and a message that may have several lines. The height of a block is the number of lines
that it takes, which is what has to be erased when the next block replaces it.
-/

namespace ModuleReload

/-! ## The time of day -/

structure TimeOfDay where
  hours : Nat
  minutes : Nat
  seconds : Nat
  deriving DecidableEq, Repr

namespace TimeOfDay

/-- The time of day after so many seconds since the epoch. -/
def ofSeconds (n : Nat) : TimeOfDay :=
  ⟨n / 3600 % 24, n / 60 % 60, n % 60⟩

/-- A number below a hundred in two digits. -/
def twoDigits (n : Nat) : String :=
  s!"{n / 10}{n % 10}"

def text (t : TimeOfDay) : String :=
  twoDigits t.hours ++ ":" ++ twoDigits t.minutes ++ ":" ++ twoDigits t.seconds

end TimeOfDay

/-! ## Blocks -/

/-- What a status block says. -/
inductive Status
  | success (message : String)
  | unchanged (message : String)
  /-- A failure with its details, which may be empty. -/
  | failure (summary detail : String)
  deriving DecidableEq, Repr

namespace Status

open Notice

/-- Text in a colour. -/
def coloured (colour : Nat) (s : String) : String :=
  style colour ++ s ++ style 39

/-- Text that stands back. -/
def dimmed (s : String) : String :=
  style 2 ++ s ++ style 0

/-- The message of a block; the details of a failure begin on a line of their own. -/
def message : Status → String
  | success message => message
  | unchanged message => message
  | failure summary detail => if detail.isEmpty then summary else summary ++ "\n" ++ detail

/-- The message behind its mark: a green tick, a red cross, or none and the message stands back. -/
def marked (s : Status) : String :=
  match s with
  | success _ => coloured 32 "✓" ++ " " ++ s.message
  | unchanged _ => dimmed s.message
  | failure .. => coloured 31 "✗" ++ " " ++ s.message

/-- The number of lines that a block takes. -/
def height (s : Status) : Nat :=
  s.message.toList.count '\n' + 1

def text (time : TimeOfDay) (s : Status) : String :=
  dimmed ("[" ++ time.text ++ "]") ++ " " ++ s.marked ++ "\n"

theorem height_pos (s : Status) : 0 < s.height :=
  Nat.succ_pos _

end Status

end ModuleReload
