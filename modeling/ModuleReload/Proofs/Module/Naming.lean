import Mathlib.Data.List.TakeWhile
import ModuleReload.Module.Place
import ModuleReload.Proofs.FileSystem.Proper
import ModuleReload.Proofs.Name.Relative
import ModuleReload.Proofs.Path.Bytes
import ModuleReload.Proofs.Path.Parts

/-!
# Relative names and places

The place of a source gives its module a name and a package; a relative name counts back from these.
Both speak of the packages around the source: what a relative name counts back from are the names of
these packages and a part for the source itself (`exists_spec`). So a relative name in a module
means what the place of the source it seems to point at would be named (`resolve_of_place`). It is
an error as soon as one of the directories on the way names no package (`namesPackage`): it is none,
or its name is no text.
-/

namespace ModuleReload

open Text

/-! ## Dotted names -/

namespace Name

/-- The package around a module is named by what stands before the last part of the module's
name. -/
theorem parent?_paste_concat {ps : List String} {n : String} (h : ∀ p ∈ ps ++ [n], '.' ∉ p.toList) :
    parent? (paste '.' (ps ++ [n])) = if ps = [] then none else some (paste '.' ps) := by
  rw [parent?, cut_paste (by simp) h]
  split
  case h_1 heq => simp at heq
  case h_2 m heq =>
    rw [if_pos]
    simpa using congrArg List.length heq
  case h_3 hne =>
    rw [if_neg, List.dropLast_concat]
    rintro rfl
    exact hne n rfl

theorem getD_parent?_ne {name : String} (h : name ≠ "") : (parent? name).getD "" ≠ name := by
  obtain hnil | ⟨ps, n, hparts⟩ := (cut '.' name).eq_nil_or_concat
  · exact absurd hnil (cut_ne_nil '.' name)
  · rw [List.concat_eq_append] at hparts
    have hdots : ∀ p ∈ ps ++ [n], '.' ∉ p.toList := hparts ▸ fun p ↦ not_mem_of_mem_cut
    obtain rfl : paste '.' (ps ++ [n]) = name := by rw [← hparts, paste_cut]
    rw [parent?_paste_concat hdots]
    split
    case isTrue => exact h.symm
    case isFalse hps =>
      intro hsame
      have hcut := congrArg (cut '.') hsame
      rw [Option.getD_some, hparts, cut_paste hps fun p hp ↦ hdots p (List.mem_append_left _ hp)]
        at hcut
      simpa using congrArg List.length hcut

/-- A relative name takes the place of as many parts as it has dots, and leaves some. -/
theorem resolve_behindDots {package module x : String} {parts : List String} {k : Nat}
    (hparts : partsFor package module = parts) (hne : "" ∉ parts) (hx : x ≠ "")
    (hdot : '.' ∉ x.toList) :
    resolve package module (behindDots (k + 1) x) =
      if k + 1 < parts.length then .ok (paste '.' (parts.take (parts.length - (k + 1)) ++ [x]))
      else .error ⟨behindDots (k + 1) x, module⟩ := by
  rw [resolve_eq_ite hparts hne k.succ_pos fun hhead ↦ hdot (List.mem_of_mem_head? hhead)]
  split
  · next hk => rw [below_of_ne (take_sub_ne_nil hk) hx]
  · rfl

end Name

/-! ## Packages around a source -/

namespace Place

open ModuleReload.Path

variable {fs : FileSystem} {p dir outer : Path} {dirs : List Bytes} {name x : String} {k : Nat}

/-- Whether a directory is a package whose name is a text, as that of a module has to be. -/
def namesPackage (fs : FileSystem) (dir : Path) : Bool :=
  isPackage fs dir && dir.title?.isSome

/-- The directories from one outwards, as long as they name packages. -/
def packagesFrom (fs : FileSystem) (dir : Path) : List Path :=
  dir.ancestors.takeWhile (namesPackage fs)

theorem filterMap_takeWhile_map {α β : Type} (P : α → Bool) (f : α → Option β) (as : List α) :
    (((as.takeWhile P).map f).takeWhile Option.isSome).filterMap id =
      (as.takeWhile fun a ↦ P a && (f a).isSome).filterMap f := by
  induction as with
  | nil => rfl
  | cons a as ih =>
    cases hP : P a <;> cases hf : f a <;> simp [hP, hf, ← ih]

theorem packagesAround_eq (hparent : p.parent? = some dir) :
    packagesAround fs p = ((packagesFrom fs dir).filterMap title?).reverse := by
  rw [packagesAround, hparent]
  exact congrArg List.reverse (filterMap_takeWhile_map _ _ _)

theorem length_packagesAround (hparent : p.parent? = some dir) :
    (packagesAround fs p).length = (packagesFrom fs dir).length := by
  rw [packagesAround_eq hparent, List.length_reverse]
  refine List.filterMap_length_eq_length.mpr fun d hd ↦ ?_
  have hnames : namesPackage fs d = true := List.mem_takeWhile_imp hd
  exact (Bool.and_eq_true_iff.mp hnames).2

theorem ne_of_mem_packagesAround (hdir : dir.Undotted) (hparent : p.parent? = some dir) {n : String}
    (hn : n ∈ packagesAround fs p) : n ≠ "" ∧ '.' ∉ n.toList := by
  rw [packagesAround_eq hparent, List.mem_reverse, List.mem_filterMap] at hn
  obtain ⟨d, hd, htitle⟩ := hn
  obtain ⟨hne, hdot⟩ := (hdir.of_mem_ancestors (List.takeWhile_subset _ hd)).of_fileName?
    (bind_decode?_eq_some_iff.mp htitle)
  exact ⟨fun h ↦ hne (h ▸ encode_empty), (mem_encode_iff (by decide)).not.mp hdot⟩

/-- The directory `outer` lies `k` levels around `dir`, and both and all between them name
packages. -/
def IsWithin (fs : FileSystem) (k : Nat) (dir outer : Path) : Prop :=
  dir.ancestors[k]? = some outer ∧ ∀ d ∈ dir.ancestors.take (k + 1), namesPackage fs d = true

theorem lt_length_takeWhile_iff {α : Type} {P : α → Bool} {as : List α} :
    k < (as.takeWhile P).length ↔ k < as.length ∧ ∀ a ∈ as.take (k + 1), P a = true := by
  induction as generalizing k with
  | nil => simp
  | cons a as ih =>
    cases ha : P a with
    | false => simp [List.takeWhile_cons_of_neg, ha]
    | true =>
      rw [List.takeWhile_cons_of_pos ha]
      cases k with
      | zero => simp [ha]
      | succ k => simp [ha, ih]

theorem exists_isWithin_iff :
    (∃ outer, IsWithin fs k dir outer) ↔ k < (packagesFrom fs dir).length := by
  have hsome : (∃ outer, dir.ancestors[k]? = some outer) ↔ k < dir.ancestors.length := by
    simp [List.getElem?_eq_some_iff]
  rw [packagesFrom, lt_length_takeWhile_iff, ← hsome]
  exact exists_and_right

/-- The packages around a directory are the last ones of those around what lies in it. -/
theorem IsWithin.packagesFrom_eq (h : IsWithin fs k dir outer) :
    packagesFrom fs dir = dir.ancestors.take k ++ packagesFrom fs outer := by
  have hfront : ∀ d ∈ dir.ancestors.take k, namesPackage fs d = true :=
    fun d hd ↦ h.2 d (List.take_subset_take_left _ (Nat.le_succ k) hd)
  rw [packagesFrom, ← List.take_append_drop k dir.ancestors, List.takeWhile_append_of_pos hfront,
    List.take_append_drop, drop_ancestors h.1, packagesFrom]

theorem IsWithin.exists_packagesAround_eq (h : IsWithin fs k dir outer) {q : Path}
    (hp : p.parent? = some dir) (hq : q.parent? = some outer) :
    ∃ inner, packagesAround fs p = packagesAround fs q ++ inner ∧ inner.length = k := by
  have hlength : (packagesAround fs p).length = k + (packagesAround fs q).length := by
    have hk : k < dir.ancestors.length := (List.getElem?_eq_some_iff.mp h.1).1
    rw [length_packagesAround hp, length_packagesAround hq, h.packagesFrom_eq, List.length_append,
      List.length_take, Nat.min_eq_left (Nat.le_of_lt hk)]
  have happend : packagesAround fs p =
      packagesAround fs q ++ ((dir.ancestors.take k).filterMap title?).reverse := by
    rw [packagesAround_eq hp, packagesAround_eq hq, h.packagesFrom_eq, List.filterMap_append,
      List.reverse_append]
  refine ⟨_, happend, ?_⟩
  rw [happend, List.length_append] at hlength
  omega

/-! ## Names -/

theorem cut_source {stem : Bytes} (hstem : '.' ∉ stem.toList) :
    cut '.' (stem ++ "." ++ sourceExtension) = [stem, sourceExtension] := by
  have hpaste : stem ++ "." ++ sourceExtension = paste '.' [stem, sourceExtension] := by
    rw [paste_cons '.' stem (by simp), paste_singleton]
  rw [hpaste, cut_paste (by simp)]
  rintro n hn
  obtain rfl | rfl : n = stem ∨ n = sourceExtension := by simpa using hn
  · exact hstem
  · decide

theorem encode_source (name : String) :
    encode (name ++ "." ++ sourceExtension) = encode name ++ "." ++ sourceExtension := by
  rw [encode_append, encode_append, show encode "." = "." by decide,
    show encode sourceExtension = sourceExtension by decide]

theorem stemOf_source {stem : Bytes} (hne : stem ≠ "") (hstem : '.' ∉ stem.toList) :
    stemOf (stem ++ "." ++ sourceExtension) = stem := by
  rw [stemOf, cut_source hstem, show [stem, sourceExtension].dropLast = [stem] from rfl,
    paste_singleton]
  split
  case h_1 => exact absurd rfl hne
  case h_2 => rfl

theorem isDots_source {stem : Bytes} (hstem : '.' ∉ stem.toList) :
    isDots (stem ++ "." ++ sourceExtension) = false := by
  have hcut := cut_source hstem
  have hext : sourceExtension ≠ "" := by decide
  rw [isDots, decide_eq_false_iff_not]
  -- The dots are cut into empty pieces, and the extension is none.
  rintro (h | h | h) <;> simp [h, cut, Text.pieces, hext.symm] at hcut

theorem slash_notMem_source {stem : Bytes} (hslash : '/' ∉ stem.toList) :
    '/' ∉ (stem ++ "." ++ sourceExtension).toList := by
  simp only [String.toList_append, List.mem_append, not_or]
  exact ⟨⟨hslash, by decide⟩, by decide⟩

theorem stem?_joinName {stem : Bytes} (hdir : dir.Undotted) (hne : stem ≠ "")
    (hstem : '.' ∉ stem.toList) (hslash : '/' ∉ stem.toList) :
    (dir.joinName (stem ++ "." ++ sourceExtension)).stem? = some stem := by
  have hdots := isDots_source hstem
  have hname : stem ++ "." ++ sourceExtension ≠ "" := fun h ↦ by
    rw [h] at hdots
    exact absurd hdots (by decide)
  rw [hdir.joinName hname (slash_notMem_source hslash), stem?, fileName?_concat hdots,
    Option.map_some, stemOf_source hne hstem]

/-- A source that is not a package's own is named after the packages around it and its stem. -/
theorem spec_of_ne (hp : p.stem?.bind decode? = some name) (hown : name ≠ ownStem) :
    Spec.of? fs p = some ⟨paste '.' (packagesAround fs p ++ [name]),
      Name.parent? (paste '.' (packagesAround fs p ++ [name])), false⟩ := by
  rw [Spec.of?, hp]
  dsimp only
  rw [if_neg hown]

/-- What a relative name in a module counts back from: the packages around its source, and the
source itself. -/
theorem exists_spec (hdir : dir.Undotted) (hparent : p.parent? = some dir)
    (hp : p.stem?.bind decode? = some name) (hne : name ≠ "") (hname : '.' ∉ name.toList)
    (hown : name = ownStem → namesPackage fs dir = true) :
    ∃ spec, Spec.of? fs p = some spec ∧
      Name.partsFor (spec.package.getD "") spec.name = packagesAround fs p ++ [name] := by
  have hparts : ∀ n ∈ packagesAround fs p, '.' ∉ n.toList :=
    fun n hn ↦ (ne_of_mem_packagesAround hdir hparent hn).2
  have hall : ∀ n ∈ packagesAround fs p ++ [name], '.' ∉ n.toList := by
    rintro n hn
    obtain hn | hn := List.mem_append.mp hn
    · exact hparts n hn
    · rwa [List.mem_singleton.mp hn]
  have hcut : cut '.' (paste '.' (packagesAround fs p ++ [name])) = packagesAround fs p ++ [name] :=
    cut_paste (by simp) hall
  by_cases h : name = ownStem
  · -- A package's own source: the part that is put behind its name is the stem of this source.
    have hnil : packagesAround fs p ≠ [] := by
      obtain ⟨dirs, hdirs⟩ := dir.exists_ancestors_eq_cons
      rw [← List.length_pos_iff, length_packagesAround hparent, packagesFrom, hdirs,
        List.takeWhile_cons_of_pos (hown h)]
      exact Nat.zero_lt_succ _
    rw [Spec.of?, hp]
    dsimp only
    rw [if_pos h, if_neg (by simpa using hnil)]
    refine ⟨_, rfl, ?_⟩
    rw [Name.partsFor, Option.getD_some, if_pos rfl, cut_paste hnil hparts, h]
    rfl
  · refine ⟨_, spec_of_ne hp h, ?_⟩
    rw [Name.partsFor, if_neg, hcut]
    -- A module is never named as the package around it.
    dsimp only
    rw [Name.parent?_paste_concat hall]
    split
    case isTrue hnil =>
      rw [hnil, List.nil_append, paste_singleton]
      exact hne.symm
    case isFalse hpackages =>
      intro hsame
      have hpieces := congrArg (cut '.') hsame
      rw [Option.getD_some, cut_paste hpackages hparts, hcut] at hpieces
      simpa using congrArg List.length hpieces

/-! ## Relative names -/

/-- The path of a source that lies in a directory below the root. -/
def sourceAt (dirs : List Bytes) (stem : Bytes) : Path :=
  ⟨true, dirs ++ [stem ++ "." ++ sourceExtension]⟩

theorem isFile_keptPieces_concat {rooted : Bool} {ps : List Bytes} {n : Bytes} (front : Bool)
    (h : fs.isFile ⟨rooted, ps ++ [n]⟩ = true) :
    fs.isFile ⟨rooted, keptPieces front ps ++ [n]⟩ = true := by
  obtain ⟨blanks, hblanks, hblank⟩ := exists_keptPieces_append front ps
  have hthin : Thinner ps (keptPieces front ps) := by
    have := (Thinner.of_blanks hblank).append_left (keptPieces front ps)
    rwa [← hblanks, List.append_nil] at this
  rw [FileSystem.isFile] at h ⊢
  split at h
  case h_1 content modified hlookup =>
    rw [FileSystem.lookup_thinner (hthin.append_right _) (.inr (by simp)) hlookup]
  case h_2 => exact absurd h (by decide)

/-- A package's own source marks the package, also where it is written with more slashes. -/
theorem isPackage_of_isFile (hdirs : ∀ d ∈ dirs, '.' ∉ d.toList)
    (hfile : fs.isFile (sourceAt dirs ownStem) = true) :
    isPackage fs ⟨true, keptPieces false dirs⟩ = true := by
  have hmarker : joinName ⟨true, keptPieces false dirs⟩ (ownStem ++ "." ++ sourceExtension) =
      ⟨true, keptPieces false dirs ++ [ownStem ++ "." ++ sourceExtension]⟩ :=
    (undotted_keptPieces hdirs).joinName (by decide) (by decide)
  rw [isPackage, hmarker]
  exact isFile_keptPieces_concat false hfile

/-- **Relative names and places agree.** Of a name behind dots in the module of a source, the first
dot stands for the directory of the source and each other one for the directory around that. If
these directories name packages, the name means what a source of that name in the last of them is
named after its place. If one of them names none, or there are not so many, it is an error. -/
theorem resolve_of_place (hfile : fs.isFile (sourceAt dirs (encode name)) = true)
    (hdirs : ∀ d ∈ dirs, '.' ∉ d.toList) (hne : name ≠ "") (hname : '.' ∉ name.toList)
    (hown : name = ownStem → (⟨true, dirs⟩ : Path).title?.isSome = true) (hx : x ≠ "")
    (hdot : '.' ∉ x.toList) (hslash : '/' ∉ x.toList) (hplain : x ≠ ownStem) (k : Nat) :
    ∃ dir spec, (sourceAt dirs (encode name)).parent? = some dir ∧
      Spec.of? fs (sourceAt dirs (encode name)) = some spec ∧
      (∀ outer, IsWithin fs k dir outer →
        ∃ target, Spec.of? fs (outer.joinName (encode x ++ "." ++ sourceExtension)) = some target ∧
          Name.resolve (spec.package.getD "") spec.name (Name.behindDots (k + 1) x) =
            .ok target.name) ∧
      ((∀ outer, ¬IsWithin fs k dir outer) →
        Name.resolve (spec.package.getD "") spec.name (Name.behindDots (k + 1) x) =
          .error ⟨Name.behindDots (k + 1) x, spec.name⟩) := by
  have hstem : encode name ≠ "" ∧ '.' ∉ (encode name).toList :=
    ⟨encode_eq_empty_iff.not.mpr hne, (mem_encode_iff (by decide)).not.mpr hname⟩
  have hdir := undotted_keptPieces hdirs
  have hparent : (sourceAt dirs (encode name)).parent? = some ⟨true, keptPieces false dirs⟩ :=
    parent?_concat (isDots_source hstem.2)
  have htitle : (sourceAt dirs (encode name)).stem?.bind decode? = some name := by
    rw [bind_decode?_eq_some_iff, sourceAt, stem?, fileName?_concat (isDots_source hstem.2),
      Option.map_some, stemOf_source hstem.1 hstem.2]
  have hpackage : name = ownStem → namesPackage fs ⟨true, keptPieces false dirs⟩ = true := by
    rintro rfl
    rw [show encode ownStem = ownStem by decide] at hfile
    have htitle := hown rfl
    rw [Path.title?, ← fileName?_keptPieces, ← Path.title?] at htitle
    rw [namesPackage, isPackage_of_isFile hdirs hfile, Bool.true_and]
    exact htitle
  obtain ⟨spec, hspec, hparts⟩ := exists_spec hdir hparent htitle hne hname hpackage
  have hnone : "" ∉ packagesAround fs (sourceAt dirs (encode name)) ++ [name] := by
    rw [List.mem_append, List.mem_singleton, not_or]
    exact ⟨fun hmem ↦ (ne_of_mem_packagesAround hdir hparent hmem).1 rfl, hne.symm⟩
  have hresolve := Name.resolve_behindDots hparts hnone hx hdot (k := k)
  have hmany : (∃ outer, IsWithin fs k ⟨true, keptPieces false dirs⟩ outer) ↔
      k < (packagesAround fs (sourceAt dirs (encode name))).length := by
    rw [length_packagesAround hparent]
    exact exists_isWithin_iff
  refine ⟨_, spec, hparent, hspec, ?_, ?_⟩
  · intro outer hwithin
    have houter : outer.Undotted := hdir.of_mem_ancestors (List.mem_of_getElem? hwithin.1)
    have hxdot : '.' ∉ (encode x).toList := (mem_encode_iff (by decide)).not.mpr hdot
    have hxslash : '/' ∉ (encode x).toList := (mem_encode_iff (by decide)).not.mpr hslash
    have hparent' := houter.parent?_joinName (isDots_source hxdot) (slash_notMem_source hxslash)
    have htarget := bind_decode?_eq_some_iff.mpr
      (stem?_joinName houter (encode_eq_empty_iff.not.mpr hx) hxdot hxslash)
    obtain ⟨inner, hinner, hlength⟩ := hwithin.exists_packagesAround_eq hparent hparent'
    have hlt := hmany.mp ⟨outer, hwithin⟩
    refine ⟨_, spec_of_ne htarget hplain, ?_⟩
    rw [hresolve, if_pos (by rw [List.length_append, List.length_singleton]; omega)]
    -- Behind the packages around the target stand `k` more and the source: these are what the dots
    -- take away.
    rw [hinner, List.length_append, List.length_append, List.length_singleton, hlength,
      List.append_assoc, Nat.add_assoc, Nat.add_sub_cancel, List.take_left]
  · intro hnot
    have hle := mt hmany.mpr (not_exists.mpr hnot)
    rw [hresolve, if_neg (by rw [List.length_append, List.length_singleton]; omega)]

end Place

/-! ## A package in a package -/

namespace FileSystem

/-- A package in a package, and a source in it. -/
def packaged : FileSystem where
  entries := [(["p"], .directory 0), (["p", "__init__.py"], .file (.text "") 0),
    (["p", "q"], .directory 0), (["p", "q", "__init__.py"], .file (.text "") 0),
    (["p", "q", "m.py"], .file (.text "") 0)]
  workingDirectory := .root

theorem isFile_packaged : packaged.isFile (Place.sourceAt ["p", "q"] "m") = true := by
  decide

end FileSystem

/-- Two dots lead out of the inner package, and three out of both. -/
theorem Place.resolve_of_place_packaged :
    ∃ spec, Spec.of? .packaged (sourceAt ["p", "q"] "m") = some spec ∧
      Name.resolve (spec.package.getD "") spec.name (Name.behindDots 2 "x") = .ok "p.x" ∧
      Name.resolve (spec.package.getD "") spec.name (Name.behindDots 3 "x") =
        .error ⟨Name.behindDots 3 "x", spec.name⟩ := by
  have hm : encode "m" = "m" := by decide
  have hx : encode "x" = "x" := by decide
  have hparent : (sourceAt ["p", "q"] "m").parent? = some ⟨true, ["p", "q"]⟩ := by decide
  have hagree := @resolve_of_place .packaged ["p", "q"] "m" "x"
    (by rw [hm, FileSystem.isFile_packaged]) (by decide) (by decide) (by decide) (by decide)
    (by decide) (by decide) (by decide) (by decide)
  rw [hm, hx] at hagree
  obtain ⟨dir, spec, hdir, hspec, hok, -⟩ := hagree 1
  obtain ⟨dir', spec', hdir', hspec', -, herror⟩ := hagree 2
  obtain rfl := Option.some.inj (hdir.symm.trans hparent)
  obtain rfl := Option.some.inj (hdir'.symm.trans hparent)
  obtain rfl := Option.some.inj (hspec'.symm.trans hspec)
  obtain ⟨target, htarget, hname⟩ := hok ⟨true, ["p"]⟩ ⟨by decide +kernel, by decide +kernel⟩
  have hbeside : Spec.of? .packaged (Path.joinName ⟨true, ["p"]⟩ ("x" ++ "." ++ sourceExtension)) =
      some ⟨"p.x", some "p", false⟩ := by decide +kernel
  obtain rfl := Option.some.inj (htarget.symm.trans hbeside)
  refine ⟨spec', hspec, hname, herror ?_⟩
  rintro outer ⟨-, hall⟩
  exact absurd (hall (.ofNames []) (by decide +kernel)) (by decide +kernel)

/-! ## Packages that name nothing -/

namespace FileSystem

/-- A package whose name is no text, and a source in it. -/
def foreign : FileSystem where
  entries := [(["\xff"], .directory 0), (["\xff", "__init__.py"], .file (.text "") 0),
    (["\xff", "m.py"], .file (.text "") 0)]
  workingDirectory := .root

/-- A directory in which `__init__.py` leads to a file, but through more links than are followed,
and a source in it. -/
def winding : FileSystem where
  entries := [(["l"], .link ⟨false, ["."]⟩), (["e.py"], .file (.text "") 0), (["d"], .directory 0),
    (["d", "__init__.py"], .link ⟨false, [".."] ++ List.replicate 40 "l" ++ ["e.py"]⟩),
    (["d", "m.py"], .file (.text "") 0)]
  workingDirectory := .root

end FileSystem

namespace Place

/-- A source in a package does not mean by a dot what lies beside it if the name of the package is
no text, nor if the file that marks the package is only found through one link too many. -/
theorem resolve_beside_unnamed :
    (∃ spec target, isPackage .foreign (.ofNames []) = false ∧
      FileSystem.foreign.isFile (sourceAt ["\xff"] "m") = true ∧
      isPackage .foreign ⟨true, ["\xff"]⟩ = true ∧
      Spec.of? .foreign (sourceAt ["\xff"] "m") = some spec ∧
      Spec.of? .foreign (sourceAt ["\xff"] "x") = some target ∧
      Name.resolve (spec.package.getD "") spec.name (Name.behindDots 1 "x") ≠ .ok target.name) ∧
    ∃ spec target, isPackage .winding (.ofNames []) = false ∧
      FileSystem.winding.isFile (sourceAt ["d"] "m") = true ∧
      FileSystem.winding.walk (FileSystem.linkLimit + 1) .root ["d", "__init__.py"] =
        .ok (.found (.present ["e.py"])) ∧
      Spec.of? .winding (sourceAt ["d"] "m") = some spec ∧
      Spec.of? .winding (sourceAt ["d"] "x") = some target ∧
      Name.resolve (spec.package.getD "") spec.name (Name.behindDots 1 "x") ≠ .ok target.name := by
  refine ⟨⟨⟨"m", none, false⟩, ⟨"x", none, false⟩, ?_⟩, ⟨"m", none, false⟩, ⟨"x", none, false⟩, ?_⟩
  · decide +kernel
  · decide +kernel

end Place

end ModuleReload
