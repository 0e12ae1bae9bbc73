import ModuleReload.FileSystem.Edit

/-!
# Snapshots of a file system

A snapshot writes a file system down, line by line, each line beginning with a word that says what
it is about:

* `directory PATH` and `file TIME PATH` make a directory, and a file last modified at a time in
  nanoseconds since the epoch;
* `line TEXT` adds a line to the file before it, and `link PATH` with `target PATH` make a link;
* `here PATH` names the working directory.

Lines that begin with no such word are passed over.
-/

namespace ModuleReload.FileSystem

/-- A file or link of a snapshot that is not complete yet. -/
inductive Draft
  | nothing
  | file (modified : Instant) (p : Path) (text : String)
  | link (p : Path)
  deriving DecidableEq, Repr

/-- The file system with a draft completed. -/
def complete (fs : FileSystem) : Draft → FileSystem
  | .nothing => fs
  | .file modified p text => fs.write p (.text text) modified
  | .link _ => fs

/-- The first word of a line, and what follows the blank after it. -/
def firstWord (line : String) : String × String :=
  let cs := line.toList
  (String.ofList (cs.takeWhile (· ≠ ' ')), String.ofList ((cs.dropWhile (· ≠ ' ')).drop 1))

/-- Takes up one line of a snapshot. -/
def takeLine (state : FileSystem × Draft) (line : String) : FileSystem × Draft :=
  let (fs, draft) := state
  match firstWord line, draft with
  | ("line", text), .file modified p sofar => (fs, .file modified p (sofar ++ text ++ "\n"))
  | ("target", target), .link p => (fs.link p (.ofString target), .nothing)
  | ("directory", p), _ => ((fs.complete draft).makeDirectory (.ofString p), .nothing)
  | ("here", p), _ => ((fs.complete draft).enter (.ofString p), .nothing)
  | ("link", p), _ => (fs.complete draft, .link (.ofString p))
  | ("file", rest), _ =>
    let (time, p) := firstWord rest
    (fs.complete draft, .file (time.toInt?.getD 0) (.ofString p) "")
  | _, _ => (fs, draft)

/-- The file system that the lines of a snapshot write down. -/
def ofSnapshot (lines : List String) : FileSystem :=
  let (fs, draft) := lines.foldl takeLine (empty, .nothing)
  fs.complete draft

end ModuleReload.FileSystem
