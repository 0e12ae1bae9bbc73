import ModuleReload.FileSystem.Search
import ModuleReload.Settings.Fields
import ModuleReload.Text.Order

/-!
# Loading settings

Settings are read from the file that is asked for, which must be there, or from the nearest file of
the usual name in the working directory or around it; without a file the standard ones hold. Paths
in them are resolved against the directory of the file, or against the working directory. The
environment is applied last, and the result has to be valid.

All this is seen from the path of the working directory, so that nothing is read, not even a file
with a rooted path, once the working directory has been removed.
-/

namespace ModuleReload.Settings

/-- The usual name of the file. -/
def fileName : String := "autoreload.toml"

/-- Names the fields of a file that are not known. -/
def unknownFields (p : Path) (names : List String) : Notice :=
  ⟨"warning", .always,
    "unknown fields in " ++ (p.fileName?.map Text.shown).getD p.text ++ ": " ++ Text.listed names⟩

/-- Reads settings from a file. -/
def ofFile (fs : FileSystem) (p : Path) : Except Error (Settings × List Notice) :=
  match fs.read p with
  | .error cause => .error (.unreadable p cause)
  | .ok source =>
    match ofText source with
    | .error e => .error e
    | .ok (s, []) => .ok (s, [])
    | .ok (s, unknown) => .ok (s, [unknownFields p unknown])

/-- The file to read settings from, if there is to be one, as seen from a directory. -/
def fileFor (fs : FileSystem) (here : Path) (asked : Option Path) : Except Error (Option Path) :=
  match asked with
  | none => .ok (fs.findOutwards here (.ofString fileName))
  | some p =>
    if fs.isFile (here.join p) then .ok (some (here.join p)) else .error (.missing (here.join p))

/-- The directory that the settings of a file are resolved against: the one that holds the file, or
the given one where there is no file. -/
def directoryFor (here : Path) (file : Option Path) : Path :=
  (file.bind Path.parent?).getD here

/-- Settles what has been read from a file: its place, the environment, and validity. -/
def settle (fs : FileSystem) (env : Environment) (here : Path) (file : Option Path)
    (s : Settings) : Except Error Settings := do
  let s := { s with file := file.map fs.normalize }.setRoot fs (directoryFor here file)
  let s ← s.applyEnvironment env
  s.validate
  return s

/-- Loads settings as seen from a directory, with a notice about unknown fields. -/
def loadFrom (fs : FileSystem) (env : Environment) (here : Path) (asked : Option Path) :
    Except Error Settings × List Notice :=
  match fileFor fs here asked with
  | .error e => (.error e, [])
  | .ok none => (settle fs env here none standard, [])
  | .ok (some p) =>
    match ofFile fs p with
    | .error e => (.error e, [])
    | .ok (s, notices) => (settle fs env here (some p) s, notices)

/-- Loads settings as seen from the working directory, with a notice about unknown fields. -/
def load (fs : FileSystem) (env : Environment) (asked : Option Path) :
    Except Error Settings × List Notice :=
  match fs.here? with
  | some here => loadFrom fs env here asked
  | none => (.error (.nowhere .notFound), [])

end ModuleReload.Settings
