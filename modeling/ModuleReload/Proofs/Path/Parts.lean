import ModuleReload.Path.Ancestors
import ModuleReload.Path.Clean

/-!
# Names in a path

What the parent and the last name of a path are, read off from the pieces that it is written in. The
directories around a path from the root whose names have no dots (`Undotted`) all are of this kind;
each of them has a name but the root.
-/

namespace ModuleReload.Path

open Text

variable {ps : List String} {n : String}

/-! ## Names behind a path -/

theorem keptPieces_concat (hn : n ≠ "" ∧ n ≠ ".") (front : Bool) (ps : List String) :
    keptPieces front (ps ++ [n]) = ps ++ [n] := by
  induction ps generalizing front with
  | nil => simp [keptPieces, hn]
  | cons p ps ih =>
    rw [List.cons_append, keptPieces, ih false]
    cases ps <;> rfl

theorem fileName?_concat {rooted : Bool} (hn : isDots n = false) :
    (⟨rooted, ps ++ [n]⟩ : Path).fileName? = some n := by
  simp only [isDots, decide_eq_false_iff_not, not_or] at hn
  rw [fileName?, kept, keptPieces_concat ⟨hn.1, hn.2.1⟩, List.getLast?_concat]
  simp [Option.filter_some, hn]

theorem parent?_concat {rooted : Bool} (hn : isDots n = false) :
    (⟨rooted, ps ++ [n]⟩ : Path).parent? = some ⟨rooted, keptPieces (!rooted) ps⟩ := by
  simp only [isDots, decide_eq_false_iff_not, not_or] at hn
  rw [parent?, kept, keptPieces_concat ⟨hn.1, hn.2.1⟩]
  split
  · next h => simp at h
  · rw [List.dropLast_concat]

/-! ## What stands behind the last component -/

theorem exists_keptPieces_append (front : Bool) (ps : List String) :
    ∃ blanks, ps = keptPieces front ps ++ blanks ∧ ∀ p ∈ blanks, p = "" ∨ p = "." := by
  induction ps generalizing front with
  | nil => exact ⟨[], rfl, by simp⟩
  | cons p ps ih =>
    obtain ⟨blanks, hps, hblanks⟩ := ih false
    rw [keptPieces]
    split
    case h_1 hnil =>
      rw [hnil, List.nil_append] at hps
      subst hps
      split
      case isTrue hp => exact ⟨p :: ps, rfl, by simpa [hp.imp_right And.left] using hblanks⟩
      case isFalse => exact ⟨ps, rfl, hblanks⟩
    case h_2 => exact ⟨blanks, congrArg (p :: ·) hps, hblanks⟩

theorem mem_of_mem_keptPieces {front : Bool} (h : n ∈ keptPieces front ps) : n ∈ ps := by
  obtain ⟨blanks, hps, -⟩ := exists_keptPieces_append front ps
  rw [hps]
  exact List.mem_append_left blanks h

theorem keptPieces_cases (front : Bool) (ps : List String) :
    keptPieces front ps = [] ∨
      ∃ qs n, keptPieces front ps = qs ++ [n] ∧ n ≠ "" ∧ (n = "." → front = true ∧ qs = []) := by
  induction ps generalizing front with
  | nil => exact .inl rfl
  | cons p ps ih =>
    rw [keptPieces]
    split
    case h_1 hnil =>
      split
      case isTrue => exact .inl rfl
      case isFalse hp => exact .inr ⟨[], p, rfl, by simpa using hp⟩
    case h_2 rest hrest =>
      obtain hnil | ⟨qs, n, hqs, hn, hdot⟩ := ih false
      · exact absurd hnil hrest
      · exact .inr ⟨p :: qs, n, congrArg (p :: ·) hqs, hn, fun h ↦ by simpa using (hdot h).1⟩

theorem keptPieces_eq_nil_or_concat (ps : List String) :
    keptPieces false ps = [] ∨ ∃ qs n, keptPieces false ps = qs ++ [n] ∧ n ≠ "" ∧ n ≠ "." := by
  obtain hnil | ⟨qs, n, hqs, hne, hdot⟩ := keptPieces_cases false ps
  · exact .inl hnil
  · exact .inr ⟨qs, n, hqs, hne, fun h ↦ by simpa using (hdot h).1⟩

theorem fileName?_ne (p : Path) : p.fileName? ≠ some "" := by
  intro h
  rw [fileName?, Option.filter_eq_some_iff] at h
  obtain hnil | ⟨qs, n, hqs, hne, -⟩ := keptPieces_cases (!p.rooted) p.pieces
  · simp [kept, hnil] at h
  · rw [kept, hqs, List.getLast?_concat] at h
    exact hne (Option.some.inj h.1)

theorem keptPieces_keptPieces (front : Bool) (ps : List String) :
    keptPieces front (keptPieces front ps) = keptPieces front ps := by
  obtain hnil | ⟨qs, n, hqs, hne, hdot⟩ := keptPieces_cases front ps
  · rw [hnil]
    rfl
  · rw [hqs]
    by_cases hn : n = "."
    · obtain ⟨rfl, rfl⟩ := hdot hn
      rw [hn]
      rfl
    · exact keptPieces_concat ⟨hne, hn⟩ front qs

theorem fileName?_keptPieces (rooted : Bool) (ps : List Bytes) :
    (⟨rooted, keptPieces (!rooted) ps⟩ : Path).fileName? = (⟨rooted, ps⟩ : Path).fileName? := by
  rw [fileName?, fileName?, kept, kept, keptPieces_keptPieces]

/-! ## Slashes at the end -/

theorem keptPieces_append_slash (front : Bool) (ps : List String) :
    keptPieces front (ps ++ [""]) = keptPieces front ps := by
  induction ps generalizing front with
  | nil => rfl
  | cons p ps ih => rw [List.cons_append, keptPieces, keptPieces, ih false]

theorem keptPieces_withoutSlash (front : Bool) (ps : List String) :
    keptPieces front (withoutSlash ps) = keptPieces front ps := by
  rw [withoutSlash]
  split
  case isTrue h =>
    obtain ⟨qs, rfl⟩ := List.getLast?_eq_some_iff.mp h
    rw [List.dropLast_concat, keptPieces_append_slash]
  case isFalse => rfl

theorem withoutSlash_concat (hn : n ≠ "") (ps : List String) :
    withoutSlash (ps ++ [n]) = ps ++ [n] := by
  rw [withoutSlash, if_neg (by simpa using hn)]

theorem withoutSlash_keptPieces (front : Bool) (ps : List String) :
    withoutSlash (keptPieces front ps) = keptPieces front ps := by
  obtain hnil | ⟨qs, n, hqs, hne, -⟩ := keptPieces_cases front ps
  · rw [hnil]
    rfl
  · rw [hqs, withoutSlash_concat hne]

theorem joinName_eq (p : Path) (hne : n ≠ "") (hslash : '/' ∉ n.toList) :
    p.joinName n = ⟨p.rooted, withoutSlash p.pieces ++ [n]⟩ := by
  have hcut : cut '/' n = [n] := by
    rw [cut, pieces_of_not_mem hslash, List.map_singleton, String.ofList_toList]
  have hname : ofBytes n = ⟨false, [n]⟩ := by
    rw [ofBytes]
    split
    case h_1 body hbody => simp [hbody] at hslash
    case h_2 => rw [piecesOf, if_neg (by simpa using hne), hcut]
  rw [joinName, hname, join, if_neg (by simp)]
  split
  case isTrue hnil =>
    rw [List.isEmpty_iff.mp hnil]
    rfl
  case isFalse => simp

/-! ## Components -/

theorem componentsOf_append (ps qs : List String) :
    componentsOf (ps ++ qs) = componentsOf ps ++ componentsOf qs :=
  List.filterMap_append

theorem components_rooted (ps : List String) :
    (⟨true, ps⟩ : Path).components = .root :: componentsOf ps := rfl

theorem componentsOf_keptPieces (front : Bool) (ps : List String) :
    componentsOf (keptPieces front ps) = componentsOf ps := by
  obtain ⟨blanks, hps, hblanks⟩ := exists_keptPieces_append front ps
  have hnone : componentsOf blanks = [] := by
    refine List.filterMap_eq_nil_iff.mpr fun p hp ↦ ?_
    obtain rfl | rfl := hblanks p hp <;> rfl
  calc componentsOf (keptPieces front ps)
      = componentsOf (keptPieces front ps) ++ componentsOf blanks := by rw [hnone, List.append_nil]
    _ = componentsOf ps := by rw [← componentsOf_append, ← hps]

theorem components_relative_cons {p : String} (hp : p ≠ ".") (ps : List String) :
    (⟨false, p :: ps⟩ : Path).components = componentsOf (p :: ps) := by
  rw [components.eq_def]
  split
  case h_1 h => simp at h
  case h_2 h => exact absurd (List.cons.inj h).1 hp
  case h_3 => rfl

theorem components_keptPieces (ps : List String) :
    (⟨true, keptPieces false ps⟩ : Path).components = (⟨true, ps⟩ : Path).components := by
  rw [components_rooted, components_rooted, componentsOf_keptPieces]

theorem componentsOf_name (hn : isDots n = false) : componentsOf [n] = [.name n] := by
  simp only [isDots, decide_eq_false_iff_not, not_or] at hn
  simp [componentsOf, hn]

theorem components_concat (hn : isDots n = false) (ps : List String) :
    (⟨true, ps ++ [n]⟩ : Path).components = (⟨true, ps⟩ : Path).components ++ [.name n] := by
  rw [components_rooted, components_rooted, componentsOf_append, componentsOf_name hn,
    List.cons_append]

theorem components_relative_congr {xs ys : List String} (h : componentsOf xs = componentsOf ys)
    (p : String) : (⟨false, p :: xs⟩ : Path).components = (⟨false, p :: ys⟩ : Path).components := by
  by_cases hp : p = "."
  · rw [hp]
    exact congrArg (Component.current :: ·) h
  · rw [components_relative_cons hp, components_relative_cons hp, ← List.singleton_append,
      componentsOf_append, h, ← componentsOf_append, List.singleton_append]

/-- What stands behind the last component of a directory is none of a file in it. -/
theorem components_keptPieces_concat (hn : isDots n = false) (rooted : Bool) (ps : List String) :
    (⟨rooted, keptPieces (!rooted) ps ++ [n]⟩ : Path).components =
      (⟨rooted, ps ++ [n]⟩ : Path).components := by
  cases rooted with
  | true => rw [components_concat hn, components_concat hn, Bool.not_true, components_keptPieces]
  | false =>
    cases ps with
    | nil => rfl
    | cons p ps =>
      have hrest : componentsOf (keptPieces false ps ++ [n]) = componentsOf (ps ++ [n]) := by
        rw [componentsOf_append, componentsOf_append, componentsOf_keptPieces]
      rw [Bool.not_false, keptPieces]
      split
      case h_1 hnil =>
        rw [hnil] at hrest
        split
        case isTrue hp =>
          -- A piece that is no component in front of a relative path is an empty one.
          obtain rfl : p = "" := by simpa using hp
          have hdot : n ≠ "." := by
            simp only [isDots, decide_eq_false_iff_not, not_or] at hn
            exact hn.2.1
          rw [List.nil_append, components_relative_cons hdot, List.cons_append,
            components_relative_cons (by simp)]
          exact hrest
        case isFalse => exact components_relative_congr hrest p
      case h_2 => exact components_relative_congr hrest p

/-! ## Extensions -/

theorem eq_of_extensionOf? {e : String} (h : extensionOf? n = some e) :
    n = stemOf n ++ "." ++ e ∧ stemOf n ≠ "" := by
  rw [extensionOf?] at h
  split at h
  case h_1 => simp at h
  case h_2 hstem =>
    have hfront : (cut '.' n).dropLast ≠ [] := fun hnil ↦ hstem (by rw [hnil]; rfl)
    have hof : stemOf n = paste '.' (cut '.' n).dropLast := by
      rw [stemOf]
      split
      case h_1 hnone => exact absurd hnone hstem
      case h_2 => rfl
    have hcut : cut '.' n = (cut '.' n).dropLast ++ [e] := by
      obtain ⟨front, hfront⟩ := List.getLast?_eq_some_iff.mp h
      rw [hfront, List.dropLast_concat]
    refine ⟨?_, hof ▸ hstem⟩
    calc n = paste '.' (cut '.' n) := (paste_cut '.' n).symm
      _ = paste '.' ((cut '.' n).dropLast ++ [e]) := congrArg (paste '.') hcut
      _ = stemOf n ++ "." ++ e := by rw [paste_concat '.' hfront, hof]

theorem pieces_append_of_not_mem {α : Type} [DecidableEq α] {sep : α} {back : List α}
    (h : sep ∉ back) (front : List α) :
    Text.pieces sep (front ++ sep :: back) = Text.pieces sep front ++ [back] := by
  induction front with
  | nil => simp [Text.pieces, pieces_of_not_mem h]
  | cons a front ih =>
    rw [List.cons_append, Text.pieces, Text.pieces, ih]
    cases hfront : Text.pieces sep front with
    | nil => exact absurd hfront (pieces_ne_nil sep front)
    | cons p ps => split <;> simp

theorem cut_append_extension {e : String} (he : '.' ∉ e.toList) (stem : String) :
    cut '.' (stem ++ "." ++ e) = cut '.' stem ++ [e] := by
  have hlist : (stem ++ "." ++ e).toList = stem.toList ++ '.' :: e.toList := by simp
  rw [cut, hlist, pieces_append_of_not_mem he, List.map_append, List.map_singleton,
    String.ofList_toList, cut]

theorem stemOf_append_extension {e stem : String} (he : '.' ∉ e.toList) (hstem : stem ≠ "") :
    stemOf (stem ++ "." ++ e) = stem := by
  rw [stemOf, cut_append_extension he, List.dropLast_concat, paste_cut]
  split
  · exact absurd rfl hstem
  · rfl

theorem extensionOf?_append_extension {e stem : String} (he : '.' ∉ e.toList) (hstem : stem ≠ "") :
    extensionOf? (stem ++ "." ++ e) = some e := by
  rw [extensionOf?, cut_append_extension he, List.dropLast_concat, paste_cut, List.getLast?_concat]
  split
  · exact absurd rfl hstem
  · rfl

theorem stemOf_ne_empty {name : String} (hname : name ≠ "") : stemOf name ≠ "" := by
  rw [stemOf]
  split
  case h_1 => exact hname
  case h_2 h => exact h

/-! ## The directories around a path -/

theorem ancestors_of_parent? {p q : Path} (h : p.parent? = some q) :
    p.ancestors = p :: q.ancestors := by
  rw [ancestors]
  split
  case h_1 hnone => simp [hnone] at h
  case h_2 q' hq' => rw [Option.some.inj (hq'.symm.trans h)]

theorem ancestors_of_parent?_eq_none {p : Path} (h : p.parent? = none) : p.ancestors = [p] := by
  rw [ancestors]
  split
  case h_1 => rfl
  case h_2 q' hq' => simp [hq'] at h

theorem exists_ancestors_eq_cons (p : Path) : ∃ qs, p.ancestors = p :: qs := by
  cases h : p.parent? with
  | none => exact ⟨[], ancestors_of_parent?_eq_none h⟩
  | some q => exact ⟨q.ancestors, ancestors_of_parent? h⟩

theorem drop_ancestors {k : Nat} {p q : Path} (h : p.ancestors[k]? = some q) :
    p.ancestors.drop k = q.ancestors := by
  induction k generalizing p with
  | zero =>
    obtain ⟨qs, hqs⟩ := p.exists_ancestors_eq_cons
    rw [hqs] at h
    obtain rfl : p = q := by simpa using h
    rfl
  | succ k ih =>
    cases hparent : p.parent? with
    | none => simp [ancestors_of_parent?_eq_none hparent] at h
    | some r =>
      rw [ancestors_of_parent? hparent] at h ⊢
      exact ih (by simpa using h)

/-- A path from the root to a directory, without dots in its names and without a slash behind
them. -/
structure Undotted (p : Path) : Prop where
  rooted : p.rooted = true
  names : ∀ n ∈ p.pieces, '.' ∉ n.toList
  tidy : p.pieces = [] ∨ ∃ ps n, p.pieces = ps ++ [n] ∧ n ≠ ""

theorem isDots_eq_false (hne : n ≠ "") (hdot : '.' ∉ n.toList) : isDots n = false := by
  have hone : n ≠ "." := fun h ↦ hdot (by simp [h])
  have htwo : n ≠ ".." := fun h ↦ hdot (by simp [h])
  simp [isDots, hne, hone, htwo]

theorem undotted_keptPieces (h : ∀ n ∈ ps, '.' ∉ n.toList) :
    Undotted ⟨true, keptPieces false ps⟩ where
  rooted := rfl
  names n hn := h n (mem_of_mem_keptPieces hn)
  tidy := (keptPieces_eq_nil_or_concat ps).imp_right fun ⟨qs, n, hqs, hn⟩ ↦ ⟨qs, n, hqs, hn.1⟩

namespace Undotted

variable {p q : Path}

theorem eq_root_or_concat (hp : p.Undotted) :
    p = .ofNames [] ∨ ∃ ps n, p = ⟨true, ps ++ [n]⟩ ∧ n ≠ "" ∧ '.' ∉ n.toList ∧ ∀ m ∈ ps,
      '.' ∉ m.toList := by
  obtain ⟨rooted, pieces⟩ := p
  obtain rfl : rooted = true := hp.rooted
  obtain hnil | ⟨ps, n, rfl, hn⟩ : pieces = [] ∨ ∃ ps n, pieces = ps ++ [n] ∧ n ≠ "" := hp.tidy
  · exact .inl (by rw [hnil, ofNames])
  · refine .inr ⟨ps, n, rfl, hn, hp.names n (by simp), fun m hm ↦ hp.names m ?_⟩
    exact List.mem_append_left _ hm

theorem parent? (hp : p.Undotted) (h : p.parent? = some q) : q.Undotted := by
  obtain rfl | ⟨ps, n, rfl, hne, hdot, hps⟩ := hp.eq_root_or_concat
  · simp [Path.parent?, kept, keptPieces, ofNames] at h
  · rw [parent?_concat (isDots_eq_false hne hdot)] at h
    obtain rfl := Option.some.inj h
    exact undotted_keptPieces hps

theorem of_mem_ancestors (hp : p.Undotted) (h : q ∈ p.ancestors) : q.Undotted := by
  induction p using ancestors.induct with
  | case1 p hparent =>
    rw [ancestors_of_parent?_eq_none hparent, List.mem_singleton] at h
    exact h ▸ hp
  | case2 p r hparent ih =>
    rw [ancestors_of_parent? hparent, List.mem_cons] at h
    obtain rfl | h := h
    · exact hp
    · exact ih (hp.parent? hparent) h

theorem of_fileName? (hp : p.Undotted) (h : p.fileName? = some n) : n ≠ "" ∧ '.' ∉ n.toList := by
  obtain rfl | ⟨ps, m, rfl, hne, hdot, -⟩ := hp.eq_root_or_concat
  · simp [fileName?, kept, keptPieces, ofNames] at h
  · rw [fileName?_concat (isDots_eq_false hne hdot)] at h
    exact Option.some.inj h ▸ ⟨hne, hdot⟩

theorem joinName (hp : p.Undotted) (hne : n ≠ "") (hslash : '/' ∉ n.toList) :
    p.joinName n = ⟨true, p.pieces ++ [n]⟩ := by
  have hpieces : withoutSlash p.pieces = p.pieces := by
    obtain hnil | ⟨ps, m, hps, hm⟩ := hp.tidy
    · rw [hnil]
      rfl
    · rw [hps, withoutSlash_concat hm]
  rw [joinName_eq p hne hslash, hp.rooted, hpieces]

theorem parent?_joinName (hp : p.Undotted) (hdots : isDots n = false) (hslash : '/' ∉ n.toList) :
    (p.joinName n).parent? = some p := by
  have hne : n ≠ "" := by
    rintro rfl
    exact absurd hdots (by decide)
  rw [hp.joinName hne hslash, parent?_concat hdots]
  obtain rfl | ⟨ps, m, rfl, hm, hdot, -⟩ := hp.eq_root_or_concat
  · rfl
  · have hm' : m ≠ "." := fun h ↦ hdot (by simp [h])
    rw [keptPieces_concat ⟨hm, hm'⟩]

end Undotted

end ModuleReload.Path
