import ModuleReload.FileSystem.Search
import ModuleReload.Name.Dotted

/-!
# Where modules lie

A module's source is a file with the extension `py`. A directory is a package if it holds the
source `__init__.py`, which is the package's own module; a module in a package is named after the
packages around it and its own file. So the place of a source gives its dotted name (`Spec.of?`)
and the directory that holds its outermost package (`packageRoot`).

The names of modules are texts while those of files are bytes. A source whose stem is no text has no
module, and the name of a module does not go beyond a package whose name is no text. But such a
directory is a package all the same, and the search for the outermost one passes it.

What is loaded may be a compiled file. It lies beside its source, or in a cache directory beside
it, and then carries a tag between its name and its extension (`editableSource?`).
-/

namespace ModuleReload.Place

open Text

/-! ## Packages -/

/-- The extension of sources. -/
def sourceExtension : String := "py"

/-- The stem of a package's own source. -/
def ownStem : String := "__init__"

/-- The directory of compiled files. -/
def cacheDirectory : String := "__pycache__"

def isPackage (fs : FileSystem) (dir : Path) : Bool :=
  fs.isFile (dir.joinName (ownStem ++ "." ++ sourceExtension))

/-- The innermost directory around a path that is no package. If all are, it is the outermost. -/
def packageRoot (fs : FileSystem) (p : Path) : Path :=
  let dirs := (p.parent?.getD p).ancestors
  match dirs.find? (!isPackage fs ·) with
  | some dir => dir
  | none => dirs.getLast?.getD p

/-! ## Compiled files -/

/-- The source of a compiled file, whether or not it exists. In a cache, a name that is no text
leads to none. -/
def sourceOfCompiled? (p : Path) : Option Path :=
  match p.parent? with
  | none => none
  | some dir =>
    if dir.fileName? = some cacheDirectory then
      -- The tag of the interpreter stands between the name and the extension.
      match (p.stem?.bind decode?).bind fun stem ↦ (cut '.' stem).head?, dir.parent? with
      | some name, some outer =>
        if name.isEmpty then none
        else some (outer.joinName (encode (name ++ "." ++ sourceExtension)))
      | _, _ => none
    else some (p.withExtension sourceExtension)

/-- The existing source of the file that a module was loaded from. -/
def editableSource? (fs : FileSystem) (p : Path) : Option Path :=
  let candidate := match p.extension? with
    | some "pyc" | some "pyo" => sourceOfCompiled? p
    | some e => if e = sourceExtension then some p else none
    | none => none
  candidate.filter fs.isFile

/-! ## Names -/

/-- What the place of a source says about its module. -/
structure Spec where
  name : String
  /-- The package that relative names count from: a package itself, else the one around. -/
  package : Option String
  isPackage : Bool
  deriving DecidableEq, Repr

/-- The names of the packages around a path, the outermost first. A package whose name is no text
ends them as any other directory does. -/
def packagesAround (fs : FileSystem) (p : Path) : List String :=
  match p.parent? with
  | none => []
  | some dir =>
    let packages := dir.ancestors.takeWhile (isPackage fs)
    ((packages.map Path.title?).takeWhile Option.isSome).filterMap id |>.reverse

/-- The spec of the module whose source lies at a path. A source whose stem is no text has none, and
neither has the source of a package that has no name. -/
def Spec.of? (fs : FileSystem) (p : Path) : Option Spec :=
  match p.stem?.bind decode? with
  | none => none
  | some stem =>
    let packages := packagesAround fs p
    if stem = ownStem then
      if packages.isEmpty then none
      else some ⟨paste '.' packages, some (paste '.' packages), true⟩
    else
      let name := paste '.' (packages ++ [stem])
      some ⟨name, Name.parent? name, false⟩

/-- A package's own source is named after the packages around it, and any other one after these and
its stem. -/
theorem Spec.of?_cases {fs : FileSystem} {p : Path} {spec : Spec} (h : Spec.of? fs p = some spec) :
    ∃ stem, p.stem?.bind decode? = some stem ∧
      ((stem = ownStem ∧ packagesAround fs p ≠ [] ∧
          spec = ⟨paste '.' (packagesAround fs p), some (paste '.' (packagesAround fs p)), true⟩) ∨
        (stem ≠ ownStem ∧
          spec = ⟨paste '.' (packagesAround fs p ++ [stem]),
            Name.parent? (paste '.' (packagesAround fs p ++ [stem])), false⟩)) := by
  rw [Spec.of?] at h
  cases hstem : p.stem?.bind decode? with
  | none => simp [hstem] at h
  | some stem =>
    rw [hstem] at h
    dsimp only at h
    refine ⟨stem, rfl, ?_⟩
    by_cases hown : stem = ownStem
    · rw [if_pos hown] at h
      split at h
      case isTrue => simp at h
      case isFalse hne => exact .inl ⟨hown, by simpa using hne, (Option.some.inj h).symm⟩
    · rw [if_neg hown] at h
      exact .inr ⟨hown, (Option.some.inj h).symm⟩

end ModuleReload.Place
