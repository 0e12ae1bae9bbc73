import ModuleReload.Proofs.Module.Naming

/-!
# Names below package roots

The place of a source gives its module a name, and the directory that holds the outermost package
around it. The one is found by climbing from directory to directory as long as they name packages,
the other as long as they are packages. So the second goes further where the name of a package is no
text. If there is no such package (`HasTextNames`), both stop at the same directory: in a path
without dots only the root is without a name, and there both stop. From this directory on the path
is what the name says (`components_of_parent?`).

So a source is found again from its package root and its name, but for one choice: a module `x` may
lie in `x.py` beside a package `x` (`source_of_spec`).
-/

namespace ModuleReload

open ModuleReload.Path Text

namespace Place

variable {fs : FileSystem} {p dir : Path} {spec : Spec}

/-! ## Climbing -/

theorem packageRoot_of_parent? (h : p.parent? = some dir) :
    packageRoot fs p = if isPackage fs dir then packageRoot fs dir else dir := by
  cases hpackage : isPackage fs dir with
  | false =>
    obtain ⟨dirs, hdirs⟩ := dir.exists_ancestors_eq_cons
    simp [packageRoot, h, hdirs, hpackage]
  | true =>
    cases hparent : dir.parent? with
    | none =>
      simp [packageRoot, h, hparent, ancestors_of_parent?_eq_none hparent, hpackage]
    | some q =>
      have hlast : (dir :: q.ancestors).getLast?.getD p = q.ancestors.getLast?.getD dir := by
        rw [List.getLast?_cons_of_ne_nil q.ancestors_ne_nil]
        simp [List.getLast?_eq_some_getLast q.ancestors_ne_nil]
      simp [packageRoot, h, hparent, ancestors_of_parent? hparent, hpackage, hlast]

/-- Around what lies in a package are the packages around it and the package itself, if it has a
name and this is a text. -/
theorem packagesAround_of_parent? (h : p.parent? = some dir) :
    packagesAround fs p =
      if isPackage fs dir then dir.title?.elim [] fun n ↦ packagesAround fs dir ++ [n] else [] := by
  cases hpackage : isPackage fs dir with
  | false =>
    obtain ⟨dirs, hdirs⟩ := dir.exists_ancestors_eq_cons
    simp [packagesAround, h, hdirs, hpackage]
  | true =>
    cases htitle : dir.title? with
    | none =>
      obtain ⟨dirs, hdirs⟩ := dir.exists_ancestors_eq_cons
      simp [packagesAround, h, hdirs, hpackage, htitle]
    | some n =>
      cases hparent : dir.parent? with
      | none =>
        simp [packagesAround, h, hparent, ancestors_of_parent?_eq_none hparent, hpackage, htitle]
      | some q =>
        simp [packagesAround, h, hparent, ancestors_of_parent? hparent, hpackage, htitle]

/-- The names of the packages around a path are texts, as far as the packages reach. The root has no
name and may be a package. -/
def HasTextNames (fs : FileSystem) (p : Path) : Prop :=
  ∀ dir, p.parent? = some dir → ∀ d ∈ dir.ancestors.takeWhile (isPackage fs),
    ∀ n, d.fileName? = some n → d.title?.isSome = true

theorem HasTextNames.isSome_title? (h : HasTextNames fs p) (hparent : p.parent? = some dir)
    (hpackage : isPackage fs dir = true) {n : Bytes} (hname : dir.fileName? = some n) :
    ∃ name, dir.title? = some name ∧ encode name = n := by
  have htitle : dir.title?.isSome = true := by
    refine h dir hparent dir ?_ n hname
    obtain ⟨dirs, hdirs⟩ := dir.exists_ancestors_eq_cons
    rw [hdirs, List.takeWhile_cons_of_pos hpackage]
    exact List.mem_cons_self
  obtain ⟨name, hname'⟩ := Option.isSome_iff_exists.mp htitle
  exact ⟨name, hname', Option.some.inj ((bind_decode?_eq_some_iff.mp hname').symm.trans hname)⟩

theorem HasTextNames.parent? (h : HasTextNames fs p) (hparent : p.parent? = some dir)
    (hpackage : isPackage fs dir = true) : HasTextNames fs dir := by
  intro q hq d hd
  refine h dir hparent d ?_
  rw [ancestors_of_parent? hq, List.takeWhile_cons_of_pos hpackage]
  exact List.mem_cons_of_mem _ hd

/-- A name as a component. -/
def componentOf (name : String) : Component :=
  .name (encode name)

/-- From the package root on, the way to a directory goes through the packages around what lies in
it. -/
theorem components_of_parent? (hdir : dir.Undotted) (htexts : HasTextNames fs p)
    (h : p.parent? = some dir) :
    dir.components = (packageRoot fs p).components ++ (packagesAround fs p).map componentOf := by
  -- Along the climb: a package passes both searches on to the directory around it, and anything
  -- else ends both.
  induction dir using ancestors.induct generalizing p with
  | case1 dir hparent =>
    have htitle : dir.title? = none := by
      obtain rfl | ⟨ps, n, rfl, hne, hdot, -⟩ := hdir.eq_root_or_concat
      · rfl
      · simp [parent?_concat (isDots_eq_false hne hdot)] at hparent
    have hroot : packageRoot fs dir = dir := by
      simp only [packageRoot, hparent, Option.getD_none, ancestors_of_parent?_eq_none hparent]
      cases hpackage : isPackage fs dir <;> simp [hpackage]
    rw [packageRoot_of_parent? h, packagesAround_of_parent? h, hroot, htitle]
    simp
  | case2 dir q hparent ih =>
    rw [packageRoot_of_parent? h, packagesAround_of_parent? h]
    cases hpackage : isPackage fs dir with
    | false => simp
    | true =>
      obtain rfl | ⟨ps, n, rfl, hne, hdot, -⟩ := hdir.eq_root_or_concat
      · simp [Path.parent?, kept, keptPieces, ofNames] at hparent
      · have hdots := isDots_eq_false hne hdot
        obtain ⟨name, htitle, hname⟩ := htexts.isSome_title? h hpackage (fileName?_concat hdots)
        have hq : q = ⟨true, keptPieces false ps⟩ := by
          rw [parent?_concat hdots] at hparent
          exact (Option.some.inj hparent).symm
        rw [components_concat hdots, ← components_keptPieces, ← hq,
          ih (hdir.parent? hparent) (htexts.parent? h hpackage) hparent, htitle]
        simp [componentOf, hname]

/-! ## Sources without dots -/

/-- The path from the root to a source whose only dot stands before its extension. -/
structure DotFree (p : Path) : Prop where
  rooted : p.rooted = true
  extension : p.extension? = some sourceExtension
  directories : ∀ d ∈ p.pieces.dropLast, '.' ∉ d.toList
  stem : ∀ s, p.stem? = some s → '.' ∉ s.toList

theorem dotFree_sourceAt {dirs : List Bytes} {stem : Bytes} (hne : stem ≠ "")
    (hstem : '.' ∉ stem.toList) (hdirs : ∀ d ∈ dirs, '.' ∉ d.toList) :
    DotFree (sourceAt dirs stem) where
  rooted := rfl
  extension := by
    rw [extension?, sourceAt, fileName?_concat (isDots_source hstem), Option.bind_some,
      extensionOf?, cut_source hstem, show [stem, sourceExtension].dropLast = [stem] from rfl,
      paste_singleton]
    split
    case h_1 => exact absurd rfl hne
    case h_2 => rfl
  directories := by simpa [sourceAt] using hdirs
  stem s hs := by
    rw [stem?, sourceAt, fileName?_concat (isDots_source hstem), Option.map_some,
      stemOf_source hne hstem] at hs
    rwa [← Option.some.inj hs]

theorem DotFree.exists_eq_sourceAt (hp : DotFree p) :
    ∃ dirs stem, p = sourceAt dirs stem ∧ p.stem? = some stem ∧ '.' ∉ stem.toList ∧
      ∀ d ∈ dirs, '.' ∉ d.toList := by
  obtain ⟨rooted, pieces⟩ := p
  obtain rfl : rooted = true := hp.rooted
  obtain ⟨n, hn, hext⟩ := Option.bind_eq_some_iff.mp hp.extension
  have hstem : stem? ⟨true, pieces⟩ = some (stemOf n) := by rw [stem?, hn, Option.map_some]
  have hname : n = stemOf n ++ "." ++ sourceExtension := (eq_of_extensionOf? hext).1
  obtain ⟨dirs, hdirs⟩ := List.getLast?_eq_some_iff.mp (Option.filter_eq_some_iff.mp hn).1
  obtain ⟨blanks, hpieces, -⟩ := exists_keptPieces_append false pieces
  have hkept : keptPieces false pieces = dirs ++ [n] := hdirs
  rw [hkept] at hpieces
  -- Behind the source nothing stands: its own name has a dot, and would be that of a directory.
  obtain rfl | ⟨front, last, rfl⟩ := blanks.eq_nil_or_concat
  · rw [List.append_nil] at hpieces
    refine ⟨dirs, stemOf n, ?_, hstem, hp.stem _ hstem, fun d hd ↦ hp.directories d ?_⟩
    · rw [sourceAt, ← hname, hpieces]
    · simpa [hpieces] using hd
  · refine absurd ?_ (hp.directories n ?_)
    · rw [hname]
      simp
    · simp only [hpieces, List.concat_eq_append, ← List.append_assoc, List.dropLast_concat]
      simp

/-- On the way from the package root to such a source stand the packages around it, none with a dot
in its name. -/
theorem DotFree.exists_eq (hp : DotFree p) (htexts : HasTextNames fs p) {name : String}
    (hname : p.stem?.bind decode? = some name) :
    (∀ n ∈ packagesAround fs p ++ [name], '.' ∉ n.toList) ∧
      p.components = (packageRoot fs p).components ++ (packagesAround fs p).map componentOf ++
        [componentOf (name ++ "." ++ sourceExtension)] := by
  obtain ⟨dirs, stem, rfl, hstem, hdot, hdirs⟩ := hp.exists_eq_sourceAt
  obtain rfl : encode name = stem :=
    Option.some.inj ((bind_decode?_eq_some_iff.mp hname).symm.trans hstem)
  have hdots := isDots_source hdot
  have hparent : (sourceAt dirs (encode name)).parent? = some ⟨true, keptPieces false dirs⟩ :=
    parent?_concat hdots
  have hdir : Undotted ⟨true, keptPieces false dirs⟩ := undotted_keptPieces hdirs
  refine ⟨?_, ?_⟩
  · rintro n hn
    obtain hn | hn := List.mem_append.mp hn
    · exact (ne_of_mem_packagesAround hdir hparent hn).2
    · rw [List.mem_singleton.mp hn]
      exact (mem_encode_iff (by decide)).not.mp hdot
  · have hlast : componentOf (name ++ "." ++ sourceExtension) =
        .name (encode name ++ "." ++ sourceExtension) := by
      rw [componentOf, encode_source]
    rw [hlast, ← components_of_parent? hdir htexts hparent, components_keptPieces, sourceAt,
      components_concat hdots]

/-! ## From a root to a source -/

/-- From a directory on, the name of a module leads to its source: through the packages around it to
a file that is named after its last part, or through itself to a package's own source. -/
inductive LeadsTo (root : List Component) (spec : Spec) : List Component → Prop
  | module {packages : List String} {n : String} (hname : cut '.' spec.name = packages ++ [n])
      (hpackage : spec.package = if packages = [] then none else some (paste '.' packages))
      (hplain : spec.isPackage = false) :
      LeadsTo root spec
        (root ++ packages.map componentOf ++ [componentOf (n ++ "." ++ sourceExtension)])
  | package (hpackage : spec.package = some spec.name) (hown : spec.isPackage = true) :
      LeadsTo root spec (root ++ (cut '.' spec.name).map componentOf ++
        [componentOf (ownStem ++ "." ++ sourceExtension)])

/-- The second path is that of a package's own source, and the first is that of a module beside the
package, which is called like it. -/
def IsBeside (source own : List Component) : Prop :=
  ∃ outer n, source = outer ++ [componentOf (n ++ "." ++ sourceExtension)] ∧
    own = outer ++ [componentOf n, componentOf (ownStem ++ "." ++ sourceExtension)]

theorem LeadsTo.eq_or_isBeside {root a b : List Component} {other : Spec}
    (ha : LeadsTo root spec a) (hb : LeadsTo root other b) (hsame : other.name = spec.name) :
    b = a ∨ IsBeside a b ∨ IsBeside b a := by
  have hcut : cut '.' other.name = cut '.' spec.name := by rw [hsame]
  cases ha with
  | @module packages n hname =>
    cases hb with
    | @module packages' n' hname' =>
      obtain ⟨rfl, rfl⟩ : packages' = packages ∧ n' = n := by simpa [hname, hname'] using hcut
      exact .inl rfl
    | package =>
      exact .inr (.inl ⟨root ++ packages.map componentOf, n, rfl, by simp [hcut, hname]⟩)
  | package =>
    cases hb with
    | @module packages n hname =>
      exact .inr (.inr ⟨root ++ packages.map componentOf, n, rfl, by simp [← hcut, hname]⟩)
    | package => exact .inl (by rw [hcut])

/-- A name leads through as many directories as it has parts, or through one less to a module. -/
theorem LeadsTo.length_eq {root a : List Component} (h : LeadsTo root spec a) :
    a.length = root.length + (cut '.' spec.name).length + if spec.isPackage then 1 else 0 := by
  cases h with
  | module hname _ hplain =>
    rw [hname, hplain]
    simp
  | package _ hown =>
    rw [hown]
    simp [Nat.add_assoc]

theorem DotFree.leadsTo (hp : DotFree p) (htexts : HasTextNames fs p)
    (hspec : Spec.of? fs p = some spec) :
    LeadsTo (packageRoot fs p).components spec p.components := by
  obtain ⟨name, hname, hcases⟩ := Spec.of?_cases hspec
  obtain ⟨hdots, hcomponents⟩ := hp.exists_eq htexts hname
  rw [hcomponents]
  obtain ⟨rfl, hne, rfl⟩ | ⟨-, rfl⟩ := hcases
  · have hcut : cut '.' (paste '.' (packagesAround fs p)) = packagesAround fs p :=
      cut_paste hne fun n hn ↦ hdots n (List.mem_append_left _ hn)
    have hleads : LeadsTo (packageRoot fs p).components ⟨paste '.' (packagesAround fs p),
      some (paste '.' (packagesAround fs p)), true⟩ _ := .package rfl rfl
    rwa [hcut] at hleads
  · exact .module (cut_paste (by simp) hdots) (Name.parent?_paste_concat hdots) rfl

/-- A source lies where its package root and its name say, if the names of the packages around it
are texts. Another one with the same root and the same name is the same one, or one of the two is a
package's own and the other lies beside the package. -/
theorem source_of_spec (hp : DotFree p) (htexts : HasTextNames fs p)
    (hspec : Spec.of? fs p = some spec) :
    LeadsTo (packageRoot fs p).components spec p.components ∧
      ∀ q other, DotFree q → HasTextNames fs q → Spec.of? fs q = some other →
        (packageRoot fs q).components = (packageRoot fs p).components → other.name = spec.name →
        q.components = p.components ∨ IsBeside p.components q.components ∨
          IsBeside q.components p.components := by
  have hleads := hp.leadsTo htexts hspec
  refine ⟨hleads, fun q other hq hqtexts hother hroot hname ↦ ?_⟩
  exact hleads.eq_or_isBeside (hroot ▸ hq.leadsTo hqtexts hother) hname

end Place

/-! ## A module beside a package -/

namespace FileSystem

/-- A package, and a module beside it that is called like it. -/
def twins : FileSystem where
  entries := [(["p"], .directory 0), (["p", "__init__.py"], .file (.text "from . import a\n") 0),
    (["p.py"], .file (.text "") 0)]
  workingDirectory := .root

end FileSystem

namespace Place

theorem hasTextNames_twins :
    HasTextNames .twins (sourceAt ["p"] ownStem) ∧ HasTextNames .twins (sourceAt [] "p") := by
  constructor
  · intro dir hdir
    obtain rfl : ⟨true, ["p"]⟩ = dir := Option.some.inj ((by decide : _ = _).symm.trans hdir)
    decide +kernel
  · intro dir hdir
    obtain rfl : .ofNames [] = dir := Option.some.inj ((by decide : _ = _).symm.trans hdir)
    decide +kernel

/-- One name leads to a module and to a package, one beside the other. -/
theorem source_of_spec_twins : ∃ spec other, Spec.of? .twins (sourceAt [] "p") = some spec ∧
    LeadsTo (packageRoot .twins (sourceAt [] "p")).components spec (sourceAt [] "p").components ∧
      Spec.of? .twins (sourceAt ["p"] ownStem) = some other ∧ other.name = spec.name ∧
        (sourceAt ["p"] ownStem).components ≠ (sourceAt [] "p").components ∧
          (IsBeside (sourceAt [] "p").components (sourceAt ["p"] ownStem).components ∨
            IsBeside (sourceAt ["p"] ownStem).components (sourceAt [] "p").components) := by
  have hspec : Spec.of? .twins (sourceAt [] "p") = some ⟨"p", none, false⟩ := by decide +kernel
  have hspec' : Spec.of? .twins (sourceAt ["p"] ownStem) = some ⟨"p", some "p", true⟩ := by
    decide +kernel
  have hroot :
      packageRoot .twins (sourceAt ["p"] ownStem) = packageRoot .twins (sourceAt [] "p") := by
    decide +kernel
  obtain ⟨htexts', htexts⟩ := hasTextNames_twins
  have hp : DotFree (sourceAt [] "p") := dotFree_sourceAt (by decide) (by decide) (by decide)
  have hown : DotFree (sourceAt ["p"] ownStem) :=
    dotFree_sourceAt (by decide) (by decide) (by decide)
  obtain ⟨hleads, hsame⟩ := source_of_spec hp htexts hspec
  have hne : (sourceAt ["p"] ownStem).components ≠ (sourceAt [] "p").components := by decide
  have hbeside := hsame _ _ hown htexts' hspec' (by rw [hroot]) rfl
  exact ⟨_, _, hspec, hleads, hspec', rfl, hne, hbeside.resolve_left hne⟩

/-- A source does not lie where its package root and its name say if the name of its package is no
text. And a path may be written otherwise than these are put together, if only with more slashes. -/
theorem source_of_spec_untold :
    (∃ spec, FileSystem.foreign.isFile (sourceAt ["\xff"] "m") = true ∧
      DotFree (sourceAt ["\xff"] "m") ∧ Spec.of? .foreign (sourceAt ["\xff"] "m") = some spec ∧
      ¬LeadsTo (packageRoot .foreign (sourceAt ["\xff"] "m")).components spec
        (sourceAt ["\xff"] "m").components) ∧
    ∃ spec, FileSystem.twins.isFile (sourceAt [""] "p") = true ∧ DotFree (sourceAt [""] "p") ∧
      Spec.of? .twins (sourceAt [""] "p") = some spec ∧
      (packageRoot .twins (sourceAt [""] "p")).joinName (spec.name ++ "." ++ sourceExtension) ≠
        sourceAt [""] "p" := by
  have hroot : packageRoot .foreign (sourceAt ["\xff"] "m") = .ofNames [] := by decide +kernel
  refine ⟨⟨⟨"m", none, false⟩, by decide +kernel, ?_, by decide +kernel, ?_⟩,
    ⟨"p", none, false⟩, by decide +kernel, ?_, by decide +kernel, by decide +kernel⟩
  · exact dotFree_sourceAt (by decide) (by decide) (by decide)
  · intro hleads
    have hlength := hleads.length_eq
    rw [hroot] at hlength
    exact absurd hlength (by decide)
  · exact dotFree_sourceAt (by decide) (by decide) (by decide)

end Place

end ModuleReload
