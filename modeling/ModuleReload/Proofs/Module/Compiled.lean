import ModuleReload.Proofs.FileSystem.Edited
import ModuleReload.Proofs.Module.Naming

/-!
# Sources of compiled files

What a module was loaded from leads to its source: a source to itself, and a compiled file to the
source beside it, or beside the cache directory that it lies in. In a cache its name goes on with a
tag, so the name of the source is what stands before the first dot.

Where this leads to a file, the file is a source and leads to itself (`editableSource?_consistent`).
The one case in doubt is a name that is nothing but a dot and an extension: without its letters it
is two dots, which take no extension. But these lead to a directory (`Orderly.isFile_eq_false`), so
no file is found there.
-/

namespace ModuleReload

open ModuleReload.Path Text

variable {fs : FileSystem}

/-! ## Files have names -/

namespace FileSystem.Orderly

theorem isDirectoryAt_outer (hfs : fs.Orderly) {here : Position} (hhere : fs.Stands here)
    (h : fs.isDirectoryAt here = true) : fs.isDirectoryAt here.outer = true := by
  cases here with
  | present l => exact (hfs.toProper.isPlace_of_isDirectoryAt h).outer
  | removed p =>
    cases p with
    | present l => exact hhere
    | removed => rfl

theorem isDirectoryAt_origin (hfs : fs.Orderly) (p : Path) :
    fs.isDirectoryAt (fs.origin p) = true := by
  rw [origin]
  split
  · rfl
  · have hhere := hfs.here
    cases hposition : fs.workingDirectory with
    | present l => rwa [hposition] at hhere
    | removed => rfl

/-- A walk along pieces that end in an empty one or in dots ends at a directory. -/
theorem isDirectoryAt_of_walk (hfs : fs.Orderly) {links : Nat} {here goal : Position}
    {ps : List String} (hhere : fs.Stands here) (hlast : ps.getLast?.any isDots = true)
    (h : fs.walk links here ps = .ok (.found goal)) : fs.isDirectoryAt goal = true := by
  replace h := Leads.of_walk h
  generalize hend : Goal.found goal = end' at h
  induction h with
  | here => simp at hlast
  | vacant => cases hend
  | @stay _ _ _ ps _ hdir _ h ih =>
    cases ps with
    | nil =>
      rw [leads_nil_iff.mp h] at hend
      exact Goal.found.inj hend ▸ hdir
    | cons q qs => exact ih hhere (by rwa [List.getLast?_cons_cons] at hlast) hend
  | @up _ _ ps _ hdir h ih =>
    cases ps with
    | nil =>
      rw [leads_nil_iff.mp h] at hend
      exact Goal.found.inj hend ▸ hfs.isDirectoryAt_outer hhere hdir
    | cons q qs =>
      exact ih (hfs.stands_outer hhere hdir) (by rwa [List.getLast?_cons_cons] at hlast) hend
  | @link _ _ _ ps _ _ _ hp _ _ _ ih =>
    cases ps with
    | nil => simp [hp] at hlast
    | cons q qs =>
      rw [List.getLast?_cons_cons] at hlast
      refine ih ?_ (by rwa [List.getLast?_append_of_ne_nil _ (List.cons_ne_nil q qs)]) hend
      split
      · exact fs.stands_root
      · exact hhere
  | @name _ _ _ ps _ _ _ hp _ hentry _ _ ih =>
    cases ps with
    | nil => simp [hp] at hlast
    | cons q qs => exact ih ⟨_, hentry⟩ (by rwa [List.getLast?_cons_cons] at hlast) hend

end FileSystem.Orderly

/-- A path that does not end in a name has no pieces, or ends in an empty one or in dots. -/
theorem Path.isDots_getLast?_of_fileName? {p : Path} (h : p.fileName? = none) :
    p.pieces = [] ∨ p.pieces.getLast?.any isDots = true := by
  obtain ⟨blanks, hpieces, hblanks⟩ := exists_keptPieces_append (!p.rooted) p.pieces
  rw [hpieces]
  obtain rfl | ⟨front, last, rfl⟩ := blanks.eq_nil_or_concat
  · rw [List.append_nil]
    obtain hnil | ⟨qs, n, hqs, -⟩ := keptPieces_cases (!p.rooted) p.pieces
    · exact .inl hnil
    · right
      rw [fileName?, kept, hqs, List.getLast?_concat] at h
      rw [hqs, List.getLast?_concat]
      have hdots : n = "." ∨ n = ".." := by
        by_contra hname
        simp [Option.filter_some, not_or.mp hname] at h
      simpa [isDots] using .inr hdots
  · right
    obtain rfl | rfl := hblanks last (by simp) <;> simp [isDots]

/-- A file is found by a path that ends in its name. -/
theorem FileSystem.Orderly.isFile_eq_false (hfs : fs.Orderly) {p : Path} (h : p.fileName? = none) :
    fs.isFile p = false := by
  rw [Bool.eq_false_iff]
  intro hfile
  rw [isFile] at hfile
  split at hfile
  case h_2 => simp at hfile
  case h_1 content modified hlookup =>
    obtain ⟨goal, hwalk, hentry⟩ := walk_of_lookup hlookup
    have hdirectory : fs.isDirectoryAt goal = true := by
      obtain hnil | hlast := isDots_getLast?_of_fileName? h
      · rw [hnil, walk_nil] at hwalk
        obtain rfl : fs.origin p = goal := by simpa using hwalk
        exact hfs.isDirectoryAt_origin p
      · exact hfs.isDirectoryAt_of_walk (hfs.stands_origin p) hlast hwalk
    rw [isDirectoryAt, hentry] at hdirectory
    simp at hdirectory

/-! ## Names with extensions -/

namespace Path

variable {ps : List String} {stem old new : String} {rooted : Bool}

theorem isDots_append_extension {e : String} (he : '.' ∉ e.toList)
    (h : e ≠ "" ∨ stem ≠ "" ∧ stem ≠ ".") : isDots (stem ++ "." ++ e) = false := by
  have hcut := cut_append_extension he stem
  have hpaste := paste_cut '.' stem
  rw [isDots, decide_eq_false_iff_not]
  -- The dots are cut into empty pieces, the last of which is the extension.
  rintro (hdots | hdots | hdots) <;> rw [hdots] at hcut
  · have hparts : [] ++ [""] = cut '.' stem ++ [e] := hcut
    exact cut_ne_nil '.' stem (List.append_inj' hparts rfl).1.symm
  · have hparts : [""] ++ [""] = cut '.' stem ++ [e] := hcut
    obtain ⟨hstem, he⟩ := List.append_inj' hparts rfl
    rw [← hstem] at hpaste
    exact h.elim (fun hne ↦ hne (List.singleton_inj.mp he.symm)) fun hne ↦ hne.1 hpaste.symm
  · have hparts : ["", ""] ++ [""] = cut '.' stem ++ [e] := hcut
    obtain ⟨hstem, he⟩ := List.append_inj' hparts rfl
    rw [← hstem] at hpaste
    exact h.elim (fun hne ↦ hne (List.singleton_inj.mp he.symm)) fun hne ↦ hne.2 hpaste.symm

theorem extension?_concat (hne : new ≠ "") (hnew : '.' ∉ new.toList) (hstem : stem ≠ "") :
    (⟨rooted, ps ++ [stem ++ "." ++ new]⟩ : Path).extension? = some new := by
  rw [extension?, fileName?_concat (isDots_append_extension hnew (.inl hne)), Option.bind_some,
    extensionOf?_append_extension hnew hstem]

theorem extension?_setExtension (hne : new ≠ "") (hnew : '.' ∉ new.toList) {p : Path} {n : String}
    (h : p.fileName? = some n) : (p.setExtension new).extension? = some new := by
  rw [setExtension, h]
  exact extension?_concat hne hnew (stemOf_ne_empty fun hempty ↦ fileName?_ne p (hempty ▸ h))

theorem withoutLast_extension (stem old : String) (ps : List String) :
    withoutLast old.length (ps ++ [stem ++ "." ++ old]).reverse =
      (ps ++ [stem ++ "."]).reverse := by
  have htake : (stem ++ "." ++ old).toList.take ((stem ++ "." ++ old).length - old.length) =
      (stem ++ ".").toList := by
    have hlength : (stem ++ "." ++ old).length - old.length = (stem ++ ".").toList.length := by
      rw [String.length_append, Nat.add_sub_cancel, String.length_toList]
    rw [hlength, @String.toList_append (stem ++ "."), List.take_left]
  have hle : old.length ≤ (stem ++ "." ++ old).length := by
    rw [String.length_append]
    exact Nat.le_add_left _ _
  simp only [List.reverse_append, List.reverse_singleton, List.singleton_append, withoutLast,
    if_pos hle, htake, String.ofList_toList]

/-- An extension is replaced by another one, unless what is left without it are two dots. -/
theorem withExtension_concat (hne : old ≠ "") (hold : '.' ∉ old.toList)
    (hstem : stem ≠ "" ∧ stem ≠ ".") (new : String) :
    (⟨rooted, ps ++ [stem ++ "." ++ old]⟩ : Path).withExtension new =
      ⟨rooted, ps ++ [stem ++ "." ++ new]⟩ := by
  have hnone : '.' ∉ "".toList := by simp
  have hempty : stem ++ "." = stem ++ "." ++ "" := String.append_empty.symm
  have hdots : isDots (stem ++ ".") = false := hempty ▸ isDots_append_extension hnone (.inr hstem)
  have hkept : (⟨rooted, ps ++ [stem ++ "."]⟩ : Path).kept = ps ++ [stem ++ "."] := by
    simp only [isDots, decide_eq_false_iff_not, not_or] at hdots
    exact keptPieces_concat ⟨hdots.1, hdots.2.1⟩ _ _
  have hstemOf : stemOf (stem ++ ".") = stem := hempty ▸ stemOf_append_extension hnone hstem.1
  rw [withExtension, extension?_concat hne hold hstem.1]
  simp only [Option.map_some, Option.getD_some, withoutLast_extension, List.reverse_reverse]
  rw [setExtension, fileName?_concat hdots]
  simp only [hkept, List.dropLast_concat, hstemOf]

end Path

/-! ## Compiled files beside their source -/

namespace Place

variable {p q dir : Path} {n : String}

theorem editableSource?_of_compiled (h : p.extension? = some "pyc" ∨ p.extension? = some "pyo") :
    editableSource? fs p = (sourceOfCompiled? p).filter fs.isFile := by
  rw [editableSource?]
  rcases h with h | h <;> rw [h] <;> rfl

theorem editableSource?_of_source (h : p.extension? = some sourceExtension) :
    editableSource? fs p = (some p).filter fs.isFile := by
  rw [editableSource?, h]
  rfl

theorem editableSource?_of_other
    (h : p.extension? ∉ [some sourceExtension, some "pyc", some "pyo"]) :
    editableSource? fs p = none := by
  simp only [List.mem_cons, List.not_mem_nil, or_false, not_or] at h
  rw [editableSource?]
  split
  · exact absurd ‹_› h.2.1
  · exact absurd ‹_› h.2.2
  · next e he =>
    rw [if_neg fun hsource ↦ h.1 (by rw [he, hsource])]
    rfl
  · rfl

theorem slash_notMem_append_extension {e : String} (hslash : '/' ∉ n.toList) (he : '/' ∉ e.toList) :
    '/' ∉ (n ++ "." ++ e).toList := by
  simp only [String.toList_append, List.mem_append, not_or]
  exact ⟨⟨hslash, by decide⟩, he⟩

theorem joinName_source (hn : n ≠ "") (hslash : '/' ∉ n.toList) (dir : Path) {e : String}
    (he : '/' ∉ e.toList) :
    dir.joinName (n ++ "." ++ e) = ⟨dir.rooted, withoutSlash dir.pieces ++ [n ++ "." ++ e]⟩ :=
  joinName_eq dir (by simp [hn]) (slash_notMem_append_extension hslash he)

/-- A compiled file of the source with the stem `n` in a directory: beside the source, unless the
directory is a cache, or in the cache there, possibly with a tag. In a cache the stem and the tag
have to be texts. -/
inductive CompiledFrom (dir : Path) (n : Bytes) : Path → Prop
  | beside {e : Bytes} (he : e = "pyc" ∨ e = "pyo") (hdir : dir.fileName? ≠ some cacheDirectory) :
      CompiledFrom dir n (dir.joinName (n ++ "." ++ e))
  | cached (hn : (decode? n).isSome = true) :
      CompiledFrom dir n ((dir.joinName cacheDirectory).joinName (n ++ "." ++ "pyc"))
  | tagged {tag : Bytes} (hslash : '/' ∉ tag.toList) (hn : (decode? n).isSome = true)
      (htag : (decode? tag).isSome = true) :
      CompiledFrom dir n
        ((dir.joinName cacheDirectory).joinName (n ++ "." ++ tag ++ "." ++ "pyc"))

theorem fileName?_withoutSlash (dir : Path) :
    (⟨dir.rooted, keptPieces (!dir.rooted) (withoutSlash dir.pieces)⟩ : Path).fileName? =
      dir.fileName? := by
  rw [fileName?_keptPieces, fileName?, fileName?, kept, kept, keptPieces_withoutSlash]

theorem sourceOfCompiled?_beside (hn : n ≠ "" ∧ n ≠ ".") (hslash : '/' ∉ n.toList) {e : String}
    (he : e = "pyc" ∨ e = "pyo") (hdir : dir.fileName? ≠ some cacheDirectory) :
    sourceOfCompiled? (dir.joinName (n ++ "." ++ e)) =
      some (dir.joinName (n ++ "." ++ sourceExtension)) := by
  have hext : e ≠ "" ∧ '.' ∉ e.toList ∧ '/' ∉ e.toList := by
    rcases he with rfl | rfl <;> decide
  rw [joinName_source hn.1 hslash dir hext.2.2, joinName_source hn.1 hslash dir (by decide),
    sourceOfCompiled?, parent?_concat (isDots_append_extension hext.2.1 (.inl hext.1))]
  dsimp only
  rw [if_neg (by rwa [fileName?_withoutSlash]), withExtension_concat hext.1 hext.2.1 hn]

/-- In a cache, the source is that of the name before the first dot in the directory around the
cache. -/
theorem sourceOfCompiled?_cached {title base : String} (hbase : base ≠ "")
    (hslash : '/' ∉ (encode base).toList) {name : Bytes} (hname : isDots name = false)
    (hnameSlash : '/' ∉ name.toList) (htitle : decode? (stemOf name) = some title)
    (hhead : (cut '.' title).head? = some base) :
    sourceOfCompiled? ((dir.joinName cacheDirectory).joinName name) =
      some ⟨dir.rooted, keptPieces (!dir.rooted) (withoutSlash dir.pieces) ++
        [encode base ++ "." ++ sourceExtension]⟩ := by
  have hcache : isDots cacheDirectory = false := by decide
  have hcacheNe : cacheDirectory ≠ "" ∧ cacheDirectory ≠ "." := by decide
  have hne : name ≠ "" := by
    rintro rfl
    exact absurd hname (by decide)
  rw [joinName_eq _ hne hnameSlash, joinName_eq dir hcacheNe.1 (by decide),
    withoutSlash_concat hcacheNe.1, sourceOfCompiled?, parent?_concat hname,
    keptPieces_concat hcacheNe]
  dsimp only
  rw [if_pos (fileName?_concat hcache), stem?, fileName?_concat hname, Option.map_some,
    Option.bind_some, htitle, Option.bind_some, hhead, parent?_concat hcache]
  dsimp only
  rw [if_neg (by simpa using hbase), encode_source,
    joinName_source (encode_eq_empty_iff.not.mpr hbase) hslash _ (by decide)]
  dsimp only
  rw [withoutSlash_keptPieces]

theorem exists_editableSource?_cached {title base : String} (hbase : base ≠ "")
    (hdot : '.' ∉ base.toList) (hslash : '/' ∉ (encode base).toList) (htitle : title ≠ "")
    (htitleSlash : '/' ∉ (encode title).toList) (hhead : (cut '.' title).head? = some base)
    (hfile : fs.isFile (dir.joinName (encode base ++ "." ++ sourceExtension)) = true) :
    ∃ q, editableSource? fs
        ((dir.joinName cacheDirectory).joinName (encode title ++ "." ++ "pyc")) = some q ∧
      q.same (dir.joinName (encode base ++ "." ++ sourceExtension)) = true := by
  have hpyc : '.' ∉ "pyc".toList ∧ '/' ∉ "pyc".toList ∧ "pyc" ≠ "" := by decide
  have hstem : encode title ≠ "" := encode_eq_empty_iff.not.mpr htitle
  have hname := @isDots_append_extension (encode title) _ hpyc.1 (.inl hpyc.2.2)
  have hext : ((dir.joinName cacheDirectory).joinName (encode title ++ "." ++ "pyc")).extension? =
      some "pyc" := by
    rw [joinName_source hstem htitleSlash _ hpyc.2.1]
    exact extension?_concat hpyc.2.2 hpyc.1 hstem
  have hnameSlash := slash_notMem_append_extension htitleSlash hpyc.2.1
  have hstemDot : '.' ∉ (encode base).toList := (mem_encode_iff (by decide)).not.mpr hdot
  rw [joinName_source (encode_eq_empty_iff.not.mpr hbase) hslash dir (by decide)] at hfile ⊢
  refine ⟨_, ?_, beq_iff_eq.mpr (components_keptPieces_concat (isDots_source hstemDot) _ _)⟩
  rw [editableSource?_of_compiled (.inl hext), sourceOfCompiled?_cached hbase hslash hname
    hnameSlash (by rw [stemOf_append_extension hpyc.1 hstem, decode?_encode]) hhead]
  exact Option.filter_eq_some_iff.mpr ⟨rfl, isFile_keptPieces_concat _ hfile⟩

theorem CompiledFrom.exists_editableSource? (h : CompiledFrom dir n p) (hn : n ≠ "")
    (hdot : '.' ∉ n.toList) (hslash : '/' ∉ n.toList)
    (hfile : fs.isFile (dir.joinName (n ++ "." ++ sourceExtension)) = true) :
    ∃ q, editableSource? fs p = some q ∧
      q.same (dir.joinName (n ++ "." ++ sourceExtension)) = true := by
  cases h with
  | @beside e he hdir =>
    refine ⟨_, ?_, beq_self_eq_true _⟩
    have hext : (dir.joinName (n ++ "." ++ e)).extension? = some e := by
      have he : e ≠ "" ∧ '.' ∉ e.toList ∧ '/' ∉ e.toList := by rcases he with rfl | rfl <;> decide
      rw [joinName_source hn hslash dir he.2.2]
      exact extension?_concat he.1 he.2.1 hn
    have hne : n ≠ "." := fun h ↦ hdot (by simp [h])
    rw [editableSource?_of_compiled (by rcases he with rfl | rfl <;> simp [hext]),
      sourceOfCompiled?_beside ⟨hn, hne⟩ hslash he hdir]
    exact Option.filter_eq_some_iff.mpr ⟨rfl, hfile⟩
  | cached hbase =>
    obtain ⟨base, hbase⟩ := Option.isSome_iff_exists.mp hbase
    obtain rfl := decode?_eq_some_iff.mp hbase
    have hdot : '.' ∉ base.toList := (mem_encode_iff (by decide)).not.mp hdot
    have hne : base ≠ "" := encode_eq_empty_iff.not.mp hn
    have hcut : (cut '.' base).head? = some base := by
      rw [cut, pieces_of_not_mem hdot, List.map_singleton, String.ofList_toList,
        List.head?_singleton]
    exact exists_editableSource?_cached hne hdot hslash hne hslash hcut hfile
  | @tagged tag htagSlash hbase htag =>
    obtain ⟨base, hbase⟩ := Option.isSome_iff_exists.mp hbase
    obtain rfl := decode?_eq_some_iff.mp hbase
    obtain ⟨tag, htag⟩ := Option.isSome_iff_exists.mp htag
    obtain rfl := decode?_eq_some_iff.mp htag
    have hdot : '.' ∉ base.toList := (mem_encode_iff (by decide)).not.mp hdot
    have hjoined : encode (base ++ "." ++ tag) = encode base ++ "." ++ encode tag := by
      rw [encode_append, encode_append, show encode "." = "." by decide]
    have hcut : (cut '.' (base ++ "." ++ tag)).head? = some base := by
      have hlist : (base ++ "." ++ tag).toList = base.toList ++ '.' :: tag.toList := by simp
      rw [cut, hlist, pieces_append_cons hdot, List.map_cons, List.head?_cons, String.ofList_toList]
    rw [← hjoined]
    exact exists_editableSource?_cached (encode_eq_empty_iff.not.mp hn) hdot hslash (by simp)
      (hjoined ▸ slash_notMem_append_extension hslash htagSlash) hcut hfile

/-! ## Sources -/

theorem slash_notMem_of_mem_ofBytes {b n : Bytes} (h : n ∈ (ofBytes b).pieces) :
    '/' ∉ n.toList := by
  have hpieces {body : Bytes} (h : n ∈ piecesOf body) : '/' ∉ n.toList := by
    rw [piecesOf] at h
    split at h
    case isTrue => simp at h
    case isFalse => exact not_mem_of_mem_cut h
  rw [ofBytes] at h
  split at h
  · exact hpieces h
  · exact hpieces h

theorem toList_subset_of_cut_head? {sep : Char} {s n : String} (h : (cut sep s).head? = some n) :
    n.toList ⊆ s.toList := by
  obtain ⟨rest, hcut⟩ := List.head?_eq_some_iff.mp h
  rw [← paste_cut sep s, hcut]
  by_cases hrest : rest = []
  · rw [hrest, paste_singleton]
    exact List.Subset.refl _
  · rw [paste_cons sep n hrest, String.toList_append, String.toList_append, List.append_assoc]
    exact List.subset_append_left _ _

/-- The name that a stem begins with is part of a piece, and no piece holds a slash. -/
theorem slash_notMem_of_stem? {b e : Bytes} {base : String}
    (hext : (ofBytes b).extension? = some e)
    (hbase : (((ofBytes b).stem?.bind decode?).bind fun stem ↦ (cut '.' stem).head?) = some base) :
    '/' ∉ (encode base).toList := by
  obtain ⟨title, htitle, hhead⟩ := Option.bind_eq_some_iff.mp hbase
  obtain ⟨last, hlast, hstem⟩ := Option.map_eq_some_iff.mp (bind_decode?_eq_some_iff.mp htitle)
  obtain ⟨last', hlast', hext⟩ := Option.bind_eq_some_iff.mp hext
  obtain rfl : last = last' := Option.some.inj (hlast.symm.trans hlast')
  have hpiece : last ∈ (ofBytes b).pieces :=
    mem_of_mem_keptPieces (List.mem_of_getLast? (Option.filter_eq_some_iff.mp hlast).1)
  rw [mem_encode_iff (by decide)]
  intro hmem
  have hmem : '/' ∈ (stemOf last).toList := by
    rw [hstem, mem_encode_iff (by decide)]
    exact toList_subset_of_cut_head? hhead hmem
  refine slash_notMem_of_mem_ofBytes hpiece ?_
  rw [(eq_of_extensionOf? hext).1]
  simp [hmem]

theorem extension?_of_sourceOfCompiled? (hfs : fs.Orderly) {e b : Bytes}
    (hext : (ofBytes b).extension? = some e) (h : sourceOfCompiled? (.ofBytes b) = some q)
    (hfile : fs.isFile q = true) : q.extension? = some sourceExtension := by
  have hsource : sourceExtension ≠ "" ∧ '.' ∉ sourceExtension.toList ∧
    '/' ∉ sourceExtension.toList := by decide
  rw [sourceOfCompiled?] at h
  split at h
  case h_1 => simp at h
  case h_2 dir hdir =>
    split at h
    case isTrue hcache =>
      split at h
      case h_2 => simp at h
      case h_1 base outer hbase houter =>
        split at h
        case isTrue => simp at h
        case isFalse hne =>
          obtain rfl := Option.some.inj h
          have hslash := slash_notMem_of_stem? hext hbase
          have hbase : encode base ≠ "" := encode_eq_empty_iff.not.mpr (by simpa using hne)
          rw [encode_source, joinName_source hbase hslash _ hsource.2.2]
          exact extension?_concat hsource.1 hsource.2.1 hbase
    case isFalse =>
      obtain rfl := Option.some.inj h
      rw [withExtension] at hfile ⊢
      generalize (Path.mk _ _) = front at hfile ⊢
      cases hname : front.fileName? with
      | none =>
        have hsame : front.setExtension sourceExtension = front := by rw [setExtension, hname]
        rw [hsame, hfs.isFile_eq_false hname] at hfile
        exact absurd hfile (by decide)
      | some n => exact extension?_setExtension hsource.1 hsource.2.1 hname

theorem editableSource?_cases (h : editableSource? fs p = some q) :
    fs.isFile q = true ∧ ((p.extension? = some sourceExtension ∧ q = p) ∨
      ∃ e, p.extension? = some e ∧ sourceOfCompiled? p = some q) := by
  by_cases hsource : p.extension? = some sourceExtension
  · rw [editableSource?_of_source hsource] at h
    obtain ⟨hq, hfile⟩ := Option.filter_eq_some_iff.mp h
    exact ⟨hfile, .inl ⟨hsource, (Option.some.inj hq).symm⟩⟩
  · by_cases hcompiled : p.extension? = some "pyc" ∨ p.extension? = some "pyo"
    · rw [editableSource?_of_compiled hcompiled] at h
      obtain ⟨hq, hfile⟩ := Option.filter_eq_some_iff.mp h
      obtain ⟨e, he⟩ : ∃ e, p.extension? = some e := hcompiled.elim (⟨_, ·⟩) (⟨_, ·⟩)
      exact ⟨hfile, .inr ⟨e, he, hq⟩⟩
    · rw [editableSource?_of_other (by simpa [hsource] using hcompiled)] at h
      simp at h

/-- **What is loaded leads to sources.** Whatever a path leads to is a file with the extension of
sources, and leads to itself. What a source has been compiled to leads to the source, the same path
possibly without some slashes and dots. No path with another extension leads anywhere. -/
theorem editableSource?_consistent (hfs : fs.Orderly) :
    (∀ b q, editableSource? fs (.ofBytes b) = some q →
      fs.isFile q = true ∧ q.extension? = some sourceExtension ∧ editableSource? fs q = some q) ∧
    (∀ dir n, n ≠ "" → '.' ∉ n.toList → '/' ∉ n.toList →
      fs.isFile (dir.joinName (n ++ "." ++ sourceExtension)) = true → ∀ p, CompiledFrom dir n p →
        ∃ q, editableSource? fs p = some q ∧
          q.same (dir.joinName (n ++ "." ++ sourceExtension)) = true) ∧
    ∀ p : Path, p.extension? ∉ [some sourceExtension, some "pyc", some "pyo"] →
      editableSource? fs p = none := by
  refine ⟨fun b q h ↦ ?_, fun dir n hn hdot hslash hfile p hp ↦ ?_,
    fun p hp ↦ editableSource?_of_other hp⟩
  · obtain ⟨hfile, hcases⟩ := editableSource?_cases h
    have hext : q.extension? = some sourceExtension := by
      obtain ⟨hext, rfl⟩ | ⟨e, hext, hq⟩ := hcases
      · exact hext
      · exact extension?_of_sourceOfCompiled? hfs hext hq hfile
    refine ⟨hfile, hext, ?_⟩
    rw [editableSource?_of_source hext]
    exact Option.filter_eq_some_iff.mpr ⟨rfl, hfile⟩
  · exact hp.exists_editableSource? hn hdot hslash hfile

end Place

namespace FileSystem

theorem orderly_packaged : packaged.Orderly where
  names := by
    have hname (n : String) (h : Path.isDots n = false ∧ '\x00' ∉ n.toList ∧ n.length ≤ nameLimit) :
        IsName n :=
      ⟨h.1, h.2.1, h.2.2⟩
    simp [packaged, hname "p" (by decide), hname "q" (by decide), hname "__init__.py" (by decide),
      hname "m.py" (by decide)]
  root := by simp [packaged]
  outer := by simp [packaged]
  nodup := by decide
  targets := by simp [packaged]
  here := rfl

end FileSystem

namespace Place

/-- From the cache of the inner package, a tagged file leads to the source, and the source to
itself. -/
theorem editableSource?_consistent_packaged : FileSystem.packaged.Orderly ∧
    ∃ q, editableSource? .packaged (.ofString "/p/q/__pycache__/m.cpython-312.pyc") = some q ∧
      q.same (.ofString "/p/q/m.py") = true ∧ FileSystem.packaged.isFile q = true ∧
        editableSource? .packaged q = some q := by
  have hsource : Path.joinName ⟨true, ["p", "q"]⟩ ("m" ++ "." ++ sourceExtension) =
    .ofString "/p/q/m.py" := by decide
  have hpath : (Path.joinName ⟨true, ["p", "q"]⟩ cacheDirectory).joinName
    ("m" ++ "." ++ "cpython-312" ++ "." ++ "pyc") =
      .ofString "/p/q/__pycache__/m.cpython-312.pyc" := by decide
  have hfile : FileSystem.packaged.isFile
      (Path.joinName ⟨true, ["p", "q"]⟩ ("m" ++ "." ++ sourceExtension)) = true := by
    rw [hsource, show Path.ofString "/p/q/m.py" = sourceAt ["p", "q"] "m" by decide,
      FileSystem.isFile_packaged]
  obtain ⟨hrests, hleads, -⟩ := editableSource?_consistent FileSystem.orderly_packaged
  obtain ⟨q, hq, hsame⟩ := hleads ⟨true, ["p", "q"]⟩ "m" (by decide) (by decide) (by decide) hfile _
    (@CompiledFrom.tagged _ _ "cpython-312" (by decide) (by decide) (by decide))
  rw [hpath] at hq
  obtain ⟨hfile, -, hrests⟩ := hrests _ q hq
  exact ⟨FileSystem.orderly_packaged, q, hq, hsource ▸ hsame, hfile, hrests⟩

/-- From the cache of the inner package, a tag that is no text leads nowhere, and neither does one
with a slash, which is none of the name of the file. -/
theorem editableSource?_untold :
    FileSystem.packaged.isFile (.ofString "/p/q/m.py") = true ∧
      editableSource? .packaged (.ofBytes "/p/q/__pycache__/m.\xff.pyc") = none ∧
      editableSource? .packaged (.ofString "/p/q/__pycache__/m.x/y.pyc") = none := by
  refine ⟨?_, ?_, ?_⟩
  · rw [show Path.ofString "/p/q/m.py" = sourceAt ["p", "q"] "m" by decide,
      FileSystem.isFile_packaged]
  · have hsource : sourceOfCompiled? (.ofBytes "/p/q/__pycache__/m.\xff.pyc") = none := by decide
    rw [editableSource?_of_compiled (.inl (by decide)), hsource]
    rfl
  · have hsource : sourceOfCompiled? (.ofString "/p/q/__pycache__/m.x/y.pyc") =
        some ⟨true, ["p", "q", "__pycache__", "m.x", "y.py"]⟩ := by decide
    have hfile : FileSystem.packaged.isFile
        ⟨true, ["p", "q", "__pycache__", "m.x", "y.py"]⟩ = false := by
      decide
    rw [editableSource?_of_compiled (.inl (by decide)), hsource]
    exact Option.filter_eq_none_iff.mpr (by simp [hfile])

end Place

end ModuleReload
