import ModuleReload.FileSystem.Search

/-!
# Changing a file system

Creating, overwriting, removing and moving what stands at a path. Writing goes to what the path
leads to, so a file that is written through a link comes to stand where the link leads. Removing,
moving and linking act on the last name of the path itself and not on what it leads to. A change
that cannot be made leaves the file system as it is, except that the directories on the way to
something new are made first.

The working directory is carried along: it moves with what is moved, and is removed with what is
removed.
-/

namespace ModuleReload.FileSystem

/-! ## The table -/

/-- Puts an entry at a location, in place of one that stands there. -/
def setEntry (fs : FileSystem) (l : Location) (e : Entry) : FileSystem :=
  { fs with entries := (l, e) :: fs.entries.filter (·.1 ≠ l) }

/-- Where a location has gone after `top` and all below it was removed. -/
def afterErasing (top l : Location) : Position :=
  if top.isPrefixOf l then
    .removedBelow (.present top.dropLast) (l.length - top.length + 1)
  else .present l

/-- Removes what stands at a location and all below it. -/
def eraseBelow (fs : FileSystem) (top : Location) : FileSystem :=
  ⟨fs.entries.filter fun e ↦ !top.isPrefixOf e.1, fs.workingDirectory.map (afterErasing top)⟩

/-- Removes what a directory holds. -/
def clear (fs : FileSystem) (l : Location) : FileSystem :=
  (fs.namesIn l).foldl (fun fs name ↦ fs.eraseBelow (l ++ [name])) fs

/-- Where a location has gone after `src` and all below it was moved to `dst`. -/
def afterMoving (src dst l : Location) : Location :=
  if src.isPrefixOf l then dst ++ l.drop src.length else l

/-- Moves what stands at a location, and all below it, to a location where nothing stands. -/
def moveBelow (fs : FileSystem) (src dst : Location) : FileSystem :=
  ⟨fs.entries.map fun e ↦ (afterMoving src dst e.1, e.2),
    fs.workingDirectory.map fun l ↦ .present (afterMoving src dst l)⟩

/-! ## Creating -/

/-- Makes a directory in an existing one. -/
def addDirectory (fs : FileSystem) (p : Path) : FileSystem :=
  match fs.slot? p with
  | some s =>
    if (fs.entry? s.location).isSome then fs else fs.setEntry s.location (.directory 0)
  | none => fs

/-- Makes the path a directory, with all directories on the way to it. -/
def makeDirectory (fs : FileSystem) (p : Path) : FileSystem :=
  if (refusal? p).isSome then fs else p.ancestors.reverse.foldl addDirectory fs

/-- Makes the directory that is to hold what the path names. -/
def makeParent (fs : FileSystem) (p : Path) : FileSystem :=
  match p.parent? with
  | some dir => fs.makeDirectory dir
  | none => fs

/-- Writes a file, with the directories on the way to it. -/
def write (fs : FileSystem) (p : Path) (content : Content) (modified : Instant) : FileSystem :=
  let fs := fs.makeParent p
  match fs.goal p with
  | .ok (.vacant l) => fs.setEntry l (.file content modified)
  | .ok (.found (.present l)) =>
    if fs.isDirectoryAt (.present l) then fs else fs.setEntry l (.file content modified)
  | _ => fs

/-- Makes the path a link, with the directories on the way to it. -/
def link (fs : FileSystem) (p target : Path) : FileSystem :=
  let fs := fs.makeParent p
  match fs.slot? p, refusal? target with
  | some ⟨l, false⟩, none =>
    if (fs.entry? l).isSome then fs else fs.setEntry l (.link target)
  | _, _ => fs

/-- Sets the modification time of what the path leads to. -/
def touch (fs : FileSystem) (p : Path) (modified : Instant) : FileSystem :=
  match fs.locate p with
  | .ok (.present l) => match fs.entry? l with
    | some (.file content _) => fs.setEntry l (.file content modified)
    | some (.directory _) => fs.setEntry l (.directory modified)
    | _ => fs
  | _ => fs

/-! ## Removing -/

/-- Removes a file or link. -/
def remove (fs : FileSystem) (p : Path) : FileSystem :=
  match fs.slot? p with
  | some ⟨l, false⟩ => if fs.isDirectoryAt (.present l) then fs else fs.eraseBelow l
  | _ => fs

/-- Removes a directory and all below it. Of a link to a directory the link alone is removed; a path
that leads to a directory without naming it empties the directory. -/
def removeDirectory (fs : FileSystem) (p : Path) : FileSystem :=
  match fs.slot? p with
  | some ⟨l, slashed⟩ =>
    match fs.entry? l with
    | some (.directory _) => fs.eraseBelow l
    | some (.link _) => if slashed then emptied else fs.eraseBelow l
    | _ => fs
  | none => emptied
where
  /-- The directory that the path leads to, made empty. -/
  emptied : FileSystem :=
    match fs.locate p with
    | .ok (.present l) => if fs.isDirectoryAt (.present l) then fs.clear l else fs
    | _ => fs

/-! ## Moving -/

/-- Whether what stands at one place can be moved to another: a directory to where nothing or an
empty directory stands, but not into itself, and anything else to where no directory stands. -/
def canMove (fs : FileSystem) (src dst : Slot) : Bool :=
  match fs.entry? src.location, fs.entry? dst.location with
  | none, _ => false
  | some (.directory _), none => !src.location.isPrefixOf dst.location
  | some (.directory _), some (.directory _) =>
    !src.location.isPrefixOf dst.location && (fs.namesIn dst.location).isEmpty
  | some (.directory _), some _ => false
  | some _, some (.directory _) => false
  | some _, _ => !src.slashed && !dst.slashed

/-- Moves what stands at a path, with all below it, to another path, in place of what stands
there. The directories on the way to the new path are made first. -/
def rename (fs : FileSystem) (p q : Path) : FileSystem :=
  let fs := fs.makeParent q
  match fs.slot? p, fs.slot? q with
  | some src, some dst =>
    if fs.canMove src dst && src.location ≠ dst.location then
      -- What is replaced goes first, so that no location holds two entries.
      (fs.eraseBelow dst.location).moveBelow src.location dst.location
    else fs
  | _, _ => fs

/-! ## Entering -/

/-- Makes the directory that the path leads to the working directory. -/
def enter (fs : FileSystem) (p : Path) : FileSystem :=
  match fs.locate p with
  | .ok here => if fs.isDirectoryAt here then { fs with workingDirectory := here } else fs
  | .error _ => fs

end ModuleReload.FileSystem
