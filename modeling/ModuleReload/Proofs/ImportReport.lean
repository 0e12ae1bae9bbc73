import ModuleReload.ImportReport
import ModuleReload.Proofs.Module.Root
import ModuleReload.Proofs.Tree.Found

/-!
# Reports with a module given by its name

The relative names of a file are resolved against its module and the package of that module. If only
the module is given, by its name, then its package is what stands before the last part of that name.
For a plain module this is what the place of its source says, and the report is the same as without
the name. A package is its own package, and its name alone does not tell that it is one: in its own
source each relative name is then read as if it had a dot more (`resolve_further`). The name of the
package has to be given as well (`ofFile_named`).
-/

namespace ModuleReload

open Text

variable {fs : FileSystem} {p : Path} {scope : Source.Scope} {spec : Place.Spec}
  {outer module : String}

/-! ## A dot more -/

namespace Name

/-- A relative name with a dot more. An absolute one stays. -/
def further (name : String) : String :=
  if leadingDots name = 0 then name else "." ++ name

theorem leadingDots_dot (name : String) : leadingDots ("." ++ name) = leadingDots name + 1 := by
  simp [leadingDots]

theorem afterDots_dot (name : String) : afterDots ("." ++ name) = afterDots name := by
  simp [afterDots]

/-- What a name means in a module, it means with a dot more in the package of this name. -/
theorem resolve_further (h : outer ≠ module) (name : String) :
    (resolve module module (further name)).toOption = (resolve outer module name).toOption := by
  by_cases hdots : leadingDots name = 0
  · rw [further, if_pos hdots, resolve_absolute hdots, resolve_absolute hdots]
  · have hparts : partsFor outer module = cut '.' module := if_neg h
    have hown : partsFor module module = cut '.' module ++ [ownPart] := if_pos rfl
    -- The dot more takes away the part that is put behind the name of a package.
    have hanchor :
        (cut '.' module ++ [ownPart]).take
          ((cut '.' module ++ [ownPart]).length - (leadingDots name + 1)) =
        (cut '.' module).take ((cut '.' module).length - leadingDots name) := by
      rw [List.length_append, List.length_singleton, Nat.add_sub_add_right]
      exact List.take_append_of_le_length (Nat.sub_le _ _)
    have hmany : (cut '.' module ++ [ownPart]).length < leadingDots name + 1 ↔
        (cut '.' module).length < leadingDots name := by
      rw [List.length_append, List.length_singleton, Nat.add_lt_add_iff_right]
    rw [further, if_neg hdots, resolve, leadingDots_dot, if_neg (Nat.succ_ne_zero _), resolve,
      if_neg hdots, hparts, hown, afterDots_dot]
    simp only [hanchor, hmany]
    split
    · rfl
    · split <;> rfl

end Name

/-! ## Lines -/

namespace ImportReport

theorem lines_map {c d : Context} {g : String → String}
    (h : ∀ name, (Name.resolve d.package d.module (g name)).toOption =
      (Name.resolve c.package c.module name).toOption) (names : List String) :
    (lines (some d) (names.map g)).1 = (lines (some c) names).1 := by
  simp only [lines, List.filterMap_map]
  congr 2
  exact funext h

theorem lines_absolute {names : List String} (h : ∀ name ∈ names, Name.leadingDots name = 0)
    (c d : Context) : lines (some c) names = lines (some d) names := by
  have hresolved :
      names.map (Name.resolve c.package c.module) =
        names.map (Name.resolve d.package d.module) := by
    refine List.map_congr_left fun name hname ↦ ?_
    rw [Name.resolve_absolute (h name hname), Name.resolve_absolute (h name hname)]
  simp only [lines, hresolved]

/-! ## Contexts -/

/-- The package of a plain module is what its name says, and a package is its own. -/
theorem package_of_spec (hspec : Place.Spec.of? fs p = some spec) :
    spec.package = if spec.isPackage then some spec.name else Name.parent? spec.name := by
  obtain ⟨stem, -, ⟨-, -, rfl⟩ | ⟨-, rfl⟩⟩ := Place.Spec.of?_cases hspec <;> rfl

theorem of?_of_spec (hspec : Place.Spec.of? fs p = some spec) :
    Context.of? fs p none none = some ⟨spec.name, spec.package.getD ""⟩ := by
  rw [Context.of?, Context.placed?, hspec, Option.map_some, Option.none_or]

theorem of?_of_plain (hspec : Place.Spec.of? fs p = some spec) (hplain : spec.isPackage = false) :
    Context.of? fs p (some spec.name) none = Context.of? fs p none none := by
  rw [of?_of_spec hspec, package_of_spec hspec, hplain]
  rfl

theorem of?_of_package (hspec : Place.Spec.of? fs p = some spec) (hown : spec.isPackage = true) :
    Context.of? fs p (some spec.name) (some spec.name) = Context.of? fs p none none := by
  rw [of?_of_spec hspec, package_of_spec hspec, hown]
  rfl

/-! ## Reports -/

theorem ofFile_congr {module module' package package' : Option String}
    (h : Context.of? fs p module package = Context.of? fs p module' package') :
    ofFile fs scope p module package = ofFile fs scope p module' package' := by
  rw [ofFile, ofFile, h]

theorem ofFile_of_imports {names : List String} (hfile : fs.isFile p = true)
    (hnames : Source.importsAt fs scope p = .ok names) (module package : Option String) :
    ofFile fs scope p module package = .ok (lines (Context.of? fs p module package) names) := by
  rw [ofFile, hfile, hnames]
  rfl

theorem ofFile_eq_error {module package : Option String} {e : Error}
    (h : ofFile fs scope p module package = .error e) (module' package' : Option String) :
    ofFile fs scope p module' package' = .error e := by
  rw [ofFile] at h ⊢
  split at h
  case isTrue hfile => rwa [if_pos hfile]
  case isFalse hfile =>
    rw [if_neg hfile]
    split at h
    case h_1 => exact h
    case h_2 => simp at h

/-- **A module and its name.** The report on a plain module is the same when the name of the module
is given. That on a package's own source is the same when its name is given as that of the module
and of the package. When it is given as that of the module alone, the report fails alike and is the
same for absolute names, and each relative name is read as if it had a dot more. -/
theorem ofFile_named (hspec : Place.Spec.of? fs p = some spec) (scope : Source.Scope) :
    (spec.isPackage = false →
        ofFile fs scope p (some spec.name) none = ofFile fs scope p none none) ∧
    (spec.isPackage = true →
      ofFile fs scope p (some spec.name) (some spec.name) = ofFile fs scope p none none ∧
      (∀ e, ofFile fs scope p none none = .error e →
        ofFile fs scope p (some spec.name) none = .error e) ∧
      ∀ names, fs.isFile p = true → Source.importsAt fs scope p = .ok names →
        (ofFile fs scope p (some spec.name) none).map Prod.fst =
            .ok (lines (Context.of? fs p none none) (names.map Name.further)).1 ∧
          ((∀ name ∈ names, Name.leadingDots name = 0) →
            ofFile fs scope p (some spec.name) none = ofFile fs scope p none none)) := by
  refine ⟨fun hplain ↦ ofFile_congr (of?_of_plain hspec hplain),
    fun hown ↦ ⟨ofFile_congr (of?_of_package hspec hown),
    fun e he ↦ ofFile_eq_error he _ _, fun names hfile hnames ↦ ⟨?_, fun habsolute ↦ ?_⟩⟩⟩
  · have hderived : Context.of? fs p none none = some ⟨spec.name, spec.name⟩ := by
      rw [of?_of_spec hspec, package_of_spec hspec, hown]
      rfl
    have houter := Name.getD_parent?_ne (SourceTree.name_ne_of_spec hspec)
    have hlines := lines_map (c := .named spec.name none) (d := ⟨spec.name, spec.name⟩)
      (Name.resolve_further houter) names
    rw [ofFile_of_imports hfile hnames, hderived, hlines]
    rfl
  · rw [ofFile_of_imports hfile hnames, ofFile_of_imports hfile hnames, of?_of_spec hspec]
    exact congrArg Except.ok (lines_absolute habsolute _ _)

/-! ## A name in a package -/

/-- The name of the package alone leaves its own names unresolved. -/
theorem ofFile_twins_ne : FileSystem.twins.isFile (Place.sourceAt ["p"] Place.ownStem) = true ∧
    Place.Spec.of? .twins (Place.sourceAt ["p"] Place.ownStem) = some ⟨"p", some "p", true⟩ ∧
    (ofFile .twins .topLevel (Place.sourceAt ["p"] Place.ownStem) none none).map Prod.fst =
    .ok ["p", "p.a"] ∧
    (ofFile .twins .topLevel (Place.sourceAt ["p"] Place.ownStem) (some "p") none).map Prod.fst =
    .ok [] ∧
    (ofFile .twins .topLevel (Place.sourceAt ["p"] Place.ownStem) (some "p") none).map Prod.fst ≠
      (ofFile .twins .topLevel (Place.sourceAt ["p"] Place.ownStem) none none).map Prod.fst := by
  decide +kernel

/-- With the name given twice they are resolved as without it, and the module beside the package
needs it once. -/
theorem ofFile_named_twins :
    ofFile .twins .topLevel (Place.sourceAt [] "p") (some "p") none =
      ofFile .twins .topLevel (Place.sourceAt [] "p") none none ∧
    ofFile .twins .topLevel (Place.sourceAt ["p"] Place.ownStem) (some "p") (some "p") =
      ofFile .twins .topLevel (Place.sourceAt ["p"] Place.ownStem) none none ∧
    (ofFile .twins .topLevel (Place.sourceAt ["p"] Place.ownStem) (some "p") none).map Prod.fst =
      .ok (lines (Context.of? .twins (Place.sourceAt ["p"] Place.ownStem) none none)
      ["..", "..a"]).1 := by
  have hplain : Place.Spec.of? .twins (Place.sourceAt [] "p") = some ⟨"p", none, false⟩ := by
    decide +kernel
  have hown :
      Place.Spec.of? .twins (Place.sourceAt ["p"] Place.ownStem) = some ⟨"p", some "p", true⟩ := by
    decide +kernel
  obtain ⟨htwice, -, hlines⟩ := (ofFile_named hown .topLevel).2 rfl
  have hnames : Source.importsAt .twins .topLevel (Place.sourceAt ["p"] Place.ownStem) =
      .ok [".", ".a"] := by
    decide +kernel
  exact ⟨(ofFile_named hplain .topLevel).1 rfl, htwice, (hlines _ (by decide +kernel) hnames).1⟩

end ImportReport

end ModuleReload
