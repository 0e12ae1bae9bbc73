import ModuleReload.FileSystem.Normal
import ModuleReload.Watch.Change

/-!
# Signals of the file system

The file system signals that something was done to some paths. Most kinds of signal tell of one
kind of change. Moving a file is signalled for its old and its new path alike; which of the two a
path is shows in whether something is there. Looking at a file, and changing no more than what is
noted about it, is no change at all.

Files that editors leave beside the one they save are passed over.
-/

namespace ModuleReload

/-- What a signal says was done. -/
inductive SignalKind
  | created
  | removed
  | renamed
  /-- The contents were changed, or it is not said what was. -/
  | changed
  /-- The modification time was set. -/
  | touched
  /-- Something else that is noted about a file was changed. -/
  | annotated
  /-- Anything else, as that a file was looked at. -/
  | other
  deriving DecidableEq, Repr

/-- A signal of the file system. -/
structure Signal where
  kind : SignalKind
  paths : List Path
  deriving DecidableEq, Repr

namespace Signal

/-- The change that a signal tells of one of its paths. -/
def change? (fs : FileSystem) (p : Path) : SignalKind → Option Change
  | .created => some .created
  | .removed => some .removed
  | .renamed => some (if fs.contains p then .created else .removed)
  | .changed => some .modified
  | .touched => some .modified
  | .annotated => none
  | .other => none

/-- The extensions of files that are kept beside an edited one. -/
def temporaryExtensions : List String :=
  ["bck", "bak", "backup", "swp", "swo", "tmp"]

/-- Whether a path is that of a file left by an editor, or hidden. A name that is no text is taken
for neither. -/
def isTemporary (p : Path) : Bool :=
  p.extension?.any temporaryExtensions.contains ||
    p.title?.any fun name ↦ name.toList.getLast? == some '~' || name.toList.head? == some '.'

/-- The changes that a signal tells of, each with the normalized path of its file. -/
def changes (fs : FileSystem) (s : Signal) : List (Path × Change) :=
  s.paths.filterMap fun p ↦
    if isTemporary p then none else (change? fs p s.kind).map fun c ↦ (fs.normalize p, c)

end Signal

end ModuleReload
