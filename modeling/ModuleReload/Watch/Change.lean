import ModuleReload.Path.Basic
import ModuleReload.Table

/-!
# Changes of files

What has happened to a file since it was last acted on is one of three changes, or nothing. Another
change of the same file is put on top of the pending one so that the net effect is kept
(`Change.after`): what was created and removed again leaves nothing, what was removed and came back
is what it came back as, and a modified file that is removed is removed. In all other cases the
first change stands.
-/

namespace ModuleReload

/-- What happened to a file. -/
inductive Change
  | created
  | modified
  | removed
  deriving DecidableEq, Repr

namespace Change

def label : Change → String
  | created => "created"
  | modified => "modified"
  | removed => "removed"

/-- What is pending for a file after one more change. -/
def after : Option Change → Change → Option Change
  | none, c => some c
  | some removed, created => some created
  | some removed, modified => some modified
  | some modified, removed => some removed
  | some created, removed => none
  | some pending, _ => some pending

end Change

/-- The pending changes of files by their normalized paths. -/
abbrev PendingChanges := Table Path Change

/-- The pending changes with what is pending for one file replaced. -/
def PendingChanges.set (changes : PendingChanges) (p : Path) : Option Change → PendingChanges
  | some c => Table.insert changes p c
  | none => Table.erase changes p

theorem PendingChanges.get?_set (changes : PendingChanges) (p q : Path) (c : Option Change) :
    (changes.set p c).get? q = if q = p then c else changes.get? q := by
  cases c with
  | none => exact Table.get?_erase changes p q
  | some c => exact Table.get?_insert changes p q c

end ModuleReload
