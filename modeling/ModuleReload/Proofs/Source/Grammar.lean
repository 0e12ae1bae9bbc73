import Mathlib.Data.List.TakeWhile
import ModuleReload.Source.Discovery

/-!
# The grammar of import statements

The two import statements as a grammar, with the names that each derivation stands for:

```text
statement ::= import module , … , module
            | from dots dotted import members            (dotted does not begin with import)
            | from dots import members                   (at least one dot)
members   ::= * | member , … , member | ( member , … , member [,] )
module    ::= dotted [as name]
member    ::= name [as name]
dotted    ::= name . … . name
```

The words of a statement are names like all others, so `as`, `from` and `import` may name modules,
members and aliases too. A derivation is still unique where it matters: the parser accepts exactly
the statements that have one, and gives the names that it stands for (`importedNames_eq_ok_iff`).

The parser cuts a list at all its commas before it looks at the items, and the grammar puts items
together. Both agree because no item holds a comma (`mapM_pieces_eq_ok_iff`).
-/

namespace ModuleReload.Source

open Text

/-! ## Derivations -/

namespace Grammar

variable {α : Type}

/-- Names with a dot between each two. -/
inductive Dotted : List Token → List String → Prop
  | single (n : String) : Dotted [.name n] [n]
  | cons (n : String) {ts : List Token} {ns : List String} (h : Dotted ts ns) :
      Dotted (.name n :: .dot :: ts) (n :: ns)

/-- An alias, which may be absent. -/
inductive Alias : List Token → Prop
  | absent : Alias []
  | present (n : String) : Alias [.name "as", .name n]

/-- A module to import, by the parts of its name. -/
inductive ModuleItem : List Token → List String → Prop
  | mk {ds as : List Token} {origin : List String} (hd : Dotted ds origin) (ha : Alias as) :
      ModuleItem (ds ++ as) origin

/-- A member to import. -/
inductive MemberItem : List Token → String → Prop
  | mk (n : String) {as : List Token} (ha : Alias as) : MemberItem (.name n :: as) n

/-- One or more items with a comma between each two. -/
inductive Listed (Item : List Token → α → Prop) : List Token → List α → Prop
  | single {ts : List Token} {a : α} (h : Item ts a) : Listed Item ts [a]
  | cons {ts us : List Token} {a : α} {as : List α} (h : Item ts a) (hs : Listed Item us as) :
      Listed Item (ts ++ .comma :: us) (a :: as)

/-- What is imported from a module: all there is, or members, which may stand in brackets and may
then end in a comma. A star asks for no member by name. -/
inductive Members : List Token → List String → Prop
  | star : Members [.star] []
  | bare {ts : List Token} {names : List String} (h : Listed MemberItem ts names) : Members ts names
  | bracketed {ts last : List Token} {names : List String} (h : Listed MemberItem ts names)
      (hlast : last = [] ∨ last = [.comma]) :
      Members (.opening .round :: (ts ++ last ++ [.closing .round])) names

/-- The dots of a relative name. -/
def dots (level : Nat) : String :=
  String.ofList (List.replicate level '.')

/-- An import statement and the names that it stands for: each module; or the base, which is the
dots with the dotted name behind them, and then each member behind the base. -/
inductive Derives : List Token → List String → Prop
  | modules {ts : List Token} {origins : List (List String)} (h : Listed ModuleItem ts origins) :
      Derives (.name "import" :: ts) (origins.map (paste '.'))
  | members (level : Nat) {ds ts : List Token} {origin names : List String} (hd : Dotted ds origin)
      (hword : ds.head? ≠ some (.name "import")) (h : Members ts names) :
      Derives (.name "from" :: (List.replicate level .dot ++ ds ++ .name "import" :: ts))
        ((dots level ++ paste '.' origin) ::
          names.map fun n ↦ dots level ++ paste '.' origin ++ "." ++ n)
  | siblings (level : Nat) {ts : List Token} {names : List String} (hlevel : 0 < level)
      (h : Members ts names) :
      Derives (.name "from" :: (List.replicate level .dot ++ .name "import" :: ts))
        (dots level :: names.map fun n ↦ dots level ++ n)

/-! ## What items are made of -/

theorem Dotted.name_or_dot {ts : List Token} {ns : List String} (h : Dotted ts ns) :
    ∀ t ∈ ts, t = .dot ∨ ∃ n, t = .name n := by
  induction h with
  | single n => simp
  | cons n _ ih => simpa using ih

theorem Dotted.exists_cons {ts : List Token} {ns : List String} (h : Dotted ts ns) :
    ∃ n us, ts = .name n :: us := by
  cases h with
  | single n => exact ⟨n, [], rfl⟩
  | cons n h => exact ⟨n, _, rfl⟩

theorem Dotted.ne_nil {ts : List Token} {ns : List String} (h : Dotted ts ns) : ns ≠ [] := by
  cases h <;> simp

theorem Alias.mem {as : List Token} (h : Alias as) : ∀ t ∈ as, ∃ n, t = .name n := by
  cases h with
  | absent => simp
  | present n => simp

theorem ModuleItem.comma_not_mem {ts : List Token} {origin : List String}
    (h : ModuleItem ts origin) : .comma ∉ ts := by
  obtain ⟨hd, ha⟩ := h
  intro hmem
  rcases List.mem_append.mp hmem with hmem | hmem
  · simpa using hd.name_or_dot _ hmem
  · simpa using ha.mem _ hmem

theorem MemberItem.mem {ts : List Token} {n : String} (h : MemberItem ts n) :
    ∀ t ∈ ts, ∃ m, t = .name m := by
  obtain ⟨n, ha⟩ := h
  intro t ht
  rcases List.mem_cons.mp ht with rfl | ht
  · exact ⟨n, rfl⟩
  · exact ha.mem t ht

theorem MemberItem.exists_cons {ts : List Token} {n : String} (h : MemberItem ts n) :
    ∃ us, ts = .name n :: us := by
  obtain ⟨n, ha⟩ := h
  exact ⟨_, rfl⟩

theorem Listed.forall_mem {Item : List Token → α → Prop} {P : Token → Prop} (hcomma : P .comma)
    (hitem : ∀ ts a, Item ts a → ∀ t ∈ ts, P t) {ts : List Token} {as : List α}
    (h : Listed Item ts as) : ∀ t ∈ ts, P t := by
  induction h with
  | single h => exact hitem _ _ h
  | cons h _ ih =>
    exact List.forall_mem_append.mpr ⟨hitem _ _ h, List.forall_mem_cons.mpr ⟨hcomma, ih⟩⟩

theorem Listed.name_or_comma {ts : List Token} {names : List String}
    (h : Listed MemberItem ts names) : ∀ t ∈ ts, t = .comma ∨ ∃ n, t = .name n :=
  h.forall_mem (.inl rfl) fun _ _ h t ht ↦ .inr (h.mem t ht)

/-! ## What statements are made of -/

theorem derives_import_iff {ts : List Token} {names : List String} :
    Derives (.name "import" :: ts) names ↔
      ∃ origins, Listed ModuleItem ts origins ∧ names = origins.map (paste '.') := by
  constructor
  · intro h
    generalize hts : Token.name "import" :: ts = us at h
    cases h with
    | modules h =>
      obtain rfl := (List.cons.inj hts).2
      exact ⟨_, h, rfl⟩
    | members | siblings => simp at hts
  · rintro ⟨origins, h, rfl⟩
    exact .modules h

theorem exists_of_derives_from {ts : List Token} {names : List String}
    (h : Derives (.name "from" :: ts) names) :
    ∃ level found us, Members us found ∧
      ((0 < level ∧ ts = List.replicate level .dot ++ .name "import" :: us ∧
          names = dots level :: found.map fun n ↦ dots level ++ n) ∨
        ∃ ds base, Dotted ds base ∧ ds.head? ≠ some (.name "import") ∧
          ts = List.replicate level .dot ++ ds ++ .name "import" :: us ∧
          names = (dots level ++ paste '.' base) ::
            found.map fun n ↦ dots level ++ paste '.' base ++ "." ++ n) := by
  generalize hts : Token.name "from" :: ts = us at h
  cases h with
  | modules => simp at hts
  | members level hd hword h =>
    exact ⟨level, _, _, h, .inr ⟨_, _, hd, hword, (List.cons.inj hts).2, rfl⟩⟩
  | siblings level hlevel h => exact ⟨level, _, _, h, .inl ⟨hlevel, (List.cons.inj hts).2, rfl⟩⟩

end Grammar

/-! ## Parts of the parser -/

/-- A step succeeds if its first part does and the second does with what the first gives. -/
theorem bind_eq_ok_iff {ε α β : Type} {x : Except ε α} {f : α → Except ε β} {b : β} :
    (x >>= f) = .ok b ↔ ∃ a, x = .ok a ∧ f a = .ok b := by
  cases x with
  | error e => simp [bind, Except.bind]
  | ok a => simp [bind, Except.bind]

namespace Import

open ModuleReload.Source.Grammar

variable {α : Type}

theorem furtherNames_of_head {ts : List Token} (h : ts.head? ≠ some .dot) :
    furtherNames ts = .ok ([], ts) := by
  cases ts with
  | nil => rfl
  | cons t ts => cases t <;> simp_all [furtherNames]

theorem furtherNames_eq_ok {ts rest : List Token} {ns : List String}
    (h : furtherNames ts = .ok (ns, rest)) :
    rest.head? ≠ some .dot ∧
      ((ns = [] ∧ ts = rest) ∨ ∃ ds, Dotted ds ns ∧ ts = .dot :: (ds ++ rest)) := by
  fun_induction furtherNames ts generalizing ns with
  | case1 n ts ih =>
    obtain ⟨⟨ms, rest'⟩, hms, heq⟩ := bind_eq_ok_iff.mp h
    obtain ⟨rfl, rfl⟩ := Prod.mk.inj (Except.ok.inj heq)
    obtain ⟨hhead, ⟨rfl, rfl⟩ | ⟨ds, hds, rfl⟩⟩ := ih hms
    · exact ⟨hhead, .inr ⟨_, .single n, rfl⟩⟩
    · exact ⟨hhead, .inr ⟨_, .cons n hds, rfl⟩⟩
  | case2 => simp at h
  | case3 ts hdot hdot' =>
    obtain ⟨rfl, rfl⟩ := Prod.mk.inj (Except.ok.inj h)
    refine ⟨fun hhead ↦ ?_, .inl ⟨rfl, rfl⟩⟩
    obtain ⟨us, rfl⟩ := List.head?_eq_some_iff.mp hhead
    exact hdot' us rfl

theorem furtherNames_of_dotted {ds rest : List Token} {ns : List String} (hd : Dotted ds ns)
    (hhead : rest.head? ≠ some .dot) : furtherNames (.dot :: (ds ++ rest)) = .ok (ns, rest) := by
  induction hd with
  | single n => exact bind_eq_ok_iff.mpr ⟨_, furtherNames_of_head hhead, rfl⟩
  | cons n _ ih => exact bind_eq_ok_iff.mpr ⟨_, ih, rfl⟩

theorem dottedName_eq_ok_iff {ts rest : List Token} {ns : List String} :
    dottedName ts = .ok (ns, rest) ↔
      ∃ ds, Dotted ds ns ∧ ts = ds ++ rest ∧ rest.head? ≠ some .dot := by
  constructor
  · intro h
    cases ts with
    | nil => simp [dottedName] at h
    | cons t ts =>
      cases t with
      | name n =>
        obtain ⟨⟨ms, rest'⟩, hms, heq⟩ := bind_eq_ok_iff.mp h
        obtain ⟨rfl, rfl⟩ := Prod.mk.inj (Except.ok.inj heq)
        obtain ⟨hhead, ⟨rfl, rfl⟩ | ⟨ds, hds, rfl⟩⟩ := furtherNames_eq_ok hms
        · exact ⟨_, .single n, rfl, hhead⟩
        · exact ⟨_, .cons n hds, rfl, hhead⟩
      | _ => simp [dottedName] at h
  · rintro ⟨ds, hds, rfl, hhead⟩
    cases hds with
    | single n => exact bind_eq_ok_iff.mpr ⟨_, furtherNames_of_head hhead, rfl⟩
    | cons n hds => exact bind_eq_ok_iff.mpr ⟨_, furtherNames_of_dotted hds hhead, rfl⟩

/-- What follows an item without its alias is nothing exactly if there is an alias or nothing. -/
theorem afterAlias_eq_nil_iff {ts : List Token} : afterAlias ts = .ok [] ↔ Alias ts := by
  constructor
  · intro h
    rw [afterAlias.eq_def] at h
    split at h
    · next n us =>
      obtain rfl := Except.ok.inj h
      exact .present n
    · simp at h
    · obtain rfl := Except.ok.inj h
      exact .absent
  · intro h
    cases h <;> rfl

theorem moduleClause_eq_ok_iff {ts : List Token} {ns : List String} :
    moduleClause ts = .ok ns ↔ ModuleItem ts ns := by
  constructor
  · intro h
    obtain ⟨⟨ms, rest⟩, hms, halias⟩ := bind_eq_ok_iff.mp h
    obtain ⟨rest', hrest, hend⟩ := bind_eq_ok_iff.mp halias
    obtain ⟨ds, hds, rfl, -⟩ := dottedName_eq_ok_iff.mp hms
    split at hend
    case isTrue hempty =>
      obtain rfl := Except.ok.inj hend
      rw [List.isEmpty_iff.mp hempty] at hrest
      exact ⟨hds, afterAlias_eq_nil_iff.mp hrest⟩
    case isFalse => simp at hend
  · rintro ⟨hd, ha⟩
    have hhead : ∀ as : List Token, Alias as → as.head? ≠ some .dot := by
      rintro as (_ | _) <;> simp
    have hdotted := dottedName_eq_ok_iff.mpr ⟨_, hd, rfl, hhead _ ha⟩
    refine bind_eq_ok_iff.mpr ⟨_, hdotted, bind_eq_ok_iff.mpr ⟨_, afterAlias_eq_nil_iff.mpr ha, ?_⟩⟩
    rfl

theorem memberClause_eq_ok_iff {ts : List Token} {n : String} :
    memberClause ts = .ok n ↔ MemberItem ts n := by
  constructor
  · intro h
    cases ts with
    | nil => simp [memberClause] at h
    | cons t ts =>
      cases t with
      | name m =>
        obtain ⟨rest, hrest, h⟩ := bind_eq_ok_iff.mp h
        split at h
        case isTrue hempty =>
          obtain rfl := Except.ok.inj h
          rw [List.isEmpty_iff.mp hempty] at hrest
          exact ⟨m, afterAlias_eq_nil_iff.mp hrest⟩
        case isFalse => simp at h
      | _ => simp [memberClause] at h
  · rintro ⟨n, ha⟩
    exact bind_eq_ok_iff.mpr ⟨_, afterAlias_eq_nil_iff.mpr ha, rfl⟩

/-! ## Lists -/

/-- Cutting a list at its commas and reading the items is putting items together with commas, if no
item holds a comma. -/
theorem mapM_pieces_eq_ok_iff {Item : List Token → α → Prop} {read : List Token → Except Fault α}
    (hread : ∀ ts a, read ts = .ok a ↔ Item ts a) (hcomma : ∀ ts a, Item ts a → .comma ∉ ts)
    {ts : List Token} {as : List α} :
    (pieces Token.comma ts).mapM read = .ok as ↔ Listed Item ts as := by
  constructor
  · have hjoin : ∀ ps : List (List Token), ps ≠ [] → ∀ as, ps.mapM read = .ok as →
        Listed Item (joinPieces .comma ps) as := by
      intro ps
      induction ps with
      | nil => exact fun hne ↦ absurd rfl hne
      | cons p ps ih =>
        intro _ as h
        rw [List.mapM_cons] at h
        obtain ⟨a, ha, h⟩ := bind_eq_ok_iff.mp h
        obtain ⟨bs, hbs, h⟩ := bind_eq_ok_iff.mp h
        obtain rfl := Except.ok.inj h
        cases ps with
        | nil =>
          obtain rfl := Except.ok.inj hbs
          exact .single ((hread _ _).mp ha)
        | cons q qs => exact .cons ((hread _ _).mp ha) (ih (by simp) bs hbs)
    intro h
    have := hjoin _ (pieces_ne_nil _ _) as h
    rwa [joinPieces_pieces] at this
  · intro h
    induction h with
    | single h =>
      rw [pieces_of_not_mem (hcomma _ _ h), List.mapM_cons, (hread _ _).mpr h]
      rfl
    | cons h _ ih =>
      rw [pieces_append_cons (hcomma _ _ h), List.mapM_cons, (hread _ _).mpr h, ih]
      rfl

theorem getLast?_pieces_ne {ts : List Token} {names : List String}
    (h : Listed MemberItem ts names) : (pieces Token.comma ts).getLast? ≠ some [] := by
  induction h with
  | single h =>
    obtain ⟨us, rfl⟩ := h.exists_cons
    rw [pieces_of_not_mem fun hmem ↦ by simpa using h.mem _ hmem]
    simp
  | cons h _ ih =>
    rw [pieces_append_cons fun hmem ↦ by simpa using h.mem _ hmem,
      List.getLast?_cons_of_ne_nil (pieces_ne_nil _ _)]
    exact ih

theorem withoutTrailingComma_pieces {us last : List Token} {names : List String}
    (h : Listed MemberItem us names) (hlast : last = [] ∨ last = [.comma]) :
    withoutTrailingComma (pieces .comma (us ++ last)) = pieces .comma us := by
  rw [withoutTrailingComma]
  rcases hlast with rfl | rfl
  · rw [List.append_nil, if_neg fun hcomma ↦ getLast?_pieces_ne h hcomma.2]
  · have hlength : (pieces Token.comma us ++ [[]]).length ≠ 1 := by
      simp [pieces_ne_nil]
    rw [pieces_concat, if_pos ⟨hlength, by simp⟩, List.dropLast_concat]

/-- What is left of the pieces of a list without a comma at its end is the pieces of the list
without it. -/
theorem exists_withoutTrailingComma (ts : List Token) :
    ∃ us last, ts = us ++ last ∧ (last = [] ∨ last = [.comma]) ∧
      withoutTrailingComma (pieces .comma ts) = pieces .comma us := by
  rw [withoutTrailingComma]
  split
  case isTrue h =>
    obtain ⟨ps, hps⟩ := List.getLast?_eq_some_iff.mp h.2
    have hne : ps ≠ [] := by
      rintro rfl
      exact h.1 (by rw [hps]; rfl)
    have hcomma : ∀ p ∈ ps, Token.comma ∉ p := fun p hp ↦
      not_mem_of_mem_pieces (hps ▸ List.mem_append_left _ hp)
    refine ⟨joinPieces .comma ps, [.comma], ?_, .inr rfl, ?_⟩
    · rw [← joinPieces_concat hne, ← hps, joinPieces_pieces]
    · rw [hps, List.dropLast_concat, pieces_joinPieces hne hcomma]
  case isFalse => exact ⟨ts, [], by simp, .inl rfl, rfl⟩

theorem mapM_memberClause_eq_ok_iff {ts : List Token} {names : List String} :
    (pieces Token.comma ts).mapM memberClause = .ok names ↔ Listed MemberItem ts names :=
  mapM_pieces_eq_ok_iff (fun _ _ ↦ memberClause_eq_ok_iff)
    fun _ _ h hmem ↦ by simpa using h.mem _ hmem

theorem bracketedMembers_eq_ok_iff {ts : List Token} {names : List String} :
    bracketedMembers ts = .ok names ↔
      ∃ us last, ts = us ++ last ++ [.closing .round] ∧ (last = [] ∨ last = [.comma]) ∧
        Listed MemberItem us names := by
  constructor
  · intro h
    have hcut :=
      List.takeWhile_append_dropWhile (p := fun t : Token ↦ decide (t ≠ .closing .round)) (l := ts)
    rw [bracketedMembers] at h
    split at h
    · obtain ⟨_, -, h⟩ := bind_eq_ok_iff.mp h
      simp at h
    · next t rest hdrop =>
      obtain ⟨ns, hns, hend⟩ := bind_eq_ok_iff.mp h
      split at hend
      case isTrue hempty =>
        obtain rfl := Except.ok.inj hend
        have ht : t = .closing .round := by
          have hhead := List.head?_dropWhile_not (fun t : Token ↦ decide (t ≠ .closing .round)) ts
          rw [hdrop] at hhead
          simpa using hhead
        obtain ⟨us, last, htake, hlast, hpieces⟩ := exists_withoutTrailingComma
          (ts.takeWhile fun t ↦ decide (t ≠ .closing .round))
        rw [hpieces] at hns
        refine ⟨us, last, ?_, hlast, mapM_memberClause_eq_ok_iff.mp hns⟩
        rw [← hcut, hdrop, htake, ht, List.isEmpty_iff.mp hempty]
      case isFalse => simp at hend
  · rintro ⟨us, last, rfl, hlast, h⟩
    have hinner : ∀ t ∈ us ++ last, decide (t ≠ .closing .round) = true := by
      intro t ht
      rcases List.mem_append.mp ht with ht | ht
      · rcases h.name_or_comma t ht with rfl | ⟨n, rfl⟩ <;> simp
      · rcases hlast with rfl | rfl
        · simp at ht
        · obtain rfl := List.mem_singleton.mp ht
          simp
    have htake : (us ++ last ++ [Token.closing .round]).takeWhile
        (fun t : Token ↦ decide (t ≠ .closing .round)) = us ++ last := by
      rw [List.takeWhile_append_of_pos hinner]
      simp
    have hdrop : (us ++ last ++ [Token.closing .round]).dropWhile
        (fun t : Token ↦ decide (t ≠ .closing .round)) = [.closing .round] := by
      rw [List.dropWhile_append_of_pos hinner]
      simp
    rw [bracketedMembers, htake, hdrop]
    refine bind_eq_ok_iff.mpr ⟨names, ?_, rfl⟩
    rw [withoutTrailingComma_pieces h hlast]
    exact mapM_memberClause_eq_ok_iff.mpr h

theorem memberList_eq_ok_iff {ts : List Token} {names : List String} :
    memberList ts = .ok names ↔ Members ts names := by
  constructor
  · intro h
    rw [memberList.eq_def] at h
    split at h
    · obtain rfl := Except.ok.inj h
      exact .star
    · simp at h
    · obtain ⟨us, last, rfl, hlast, hlist⟩ := bracketedMembers_eq_ok_iff.mp h
      exact .bracketed hlist hlast
    · exact .bare (mapM_memberClause_eq_ok_iff.mp h)
  · intro h
    cases h with
    | star => rfl
    | bare h =>
      obtain ⟨n, us, rfl⟩ : ∃ n us, ts = .name n :: us := by
        cases h with
        | single h =>
          obtain ⟨us, rfl⟩ := h.exists_cons
          exact ⟨_, us, rfl⟩
        | cons h _ =>
          obtain ⟨us, rfl⟩ := h.exists_cons
          exact ⟨_, _, rfl⟩
      exact mapM_memberClause_eq_ok_iff.mpr h
    | bracketed h hlast => exact bracketedMembers_eq_ok_iff.mpr ⟨_, _, rfl, hlast, h⟩

/-! ## Statements -/

theorem ofModuleList_eq_ok_iff {ts : List Token} {i : Import} :
    ofModuleList ts = .ok i ↔ ∃ origins, Listed ModuleItem ts origins ∧ i = modules origins := by
  have hlist : ∀ origins, (pieces Token.comma ts).mapM moduleClause = .ok origins ↔
      Listed ModuleItem ts origins := fun _ ↦
    mapM_pieces_eq_ok_iff (fun _ _ ↦ moduleClause_eq_ok_iff) fun _ _ h ↦ h.comma_not_mem
  constructor
  · intro h
    obtain ⟨origins, horigins, hi⟩ := bind_eq_ok_iff.mp h
    exact ⟨origins, (hlist _).mp horigins, (Except.ok.inj hi).symm⟩
  · rintro ⟨origins, horigins, rfl⟩
    exact bind_eq_ok_iff.mpr ⟨origins, (hlist _).mpr horigins, rfl⟩

/-- The module to import from is absent, or a dotted name that does not begin with the import
word. -/
theorem origin_eq_ok {ts rest : List Token} {base : List String}
    (h : origin ts = .ok (base, rest)) :
    (base = [] ∧ rest = ts) ∨
      ∃ ds, Dotted ds base ∧ ds.head? ≠ some (.name "import") ∧ ts = ds ++ rest := by
  rw [origin.eq_def] at h
  split at h
  · obtain ⟨rfl, rfl⟩ := Prod.mk.inj (Except.ok.inj h)
    exact .inl ⟨rfl, rfl⟩
  · next n us hword =>
    obtain ⟨ds, hds, hts, -⟩ := dottedName_eq_ok_iff.mp h
    refine .inr ⟨ds, hds, ?_, hts⟩
    obtain ⟨m, vs, rfl⟩ := hds.exists_cons
    obtain rfl : n = m := Token.name.inj (List.cons.inj hts).1
    simpa using hword
  · obtain ⟨rfl, rfl⟩ := Prod.mk.inj (Except.ok.inj h)
    exact .inl ⟨rfl, rfl⟩

theorem origin_of_dotted {ds rest : List Token} {base : List String} (hd : Dotted ds base)
    (hword : ds.head? ≠ some (.name "import")) (hhead : rest.head? ≠ some .dot) :
    origin (ds ++ rest) = .ok (base, rest) := by
  have hdotted : dottedName (ds ++ rest) = .ok (base, rest) :=
    dottedName_eq_ok_iff.mpr ⟨ds, hd, rfl, hhead⟩
  obtain ⟨n, us, rfl⟩ := hd.exists_cons
  have hn : n ≠ "import" := by simpa using hword
  rw [List.cons_append, origin.eq_def]
  split
  · next heq => exact absurd (Token.name.inj (List.cons.inj heq).1) hn
  · next heq =>
    rw [← heq]
    exact hdotted
  · next hname =>
    exact absurd rfl (hname n _)

theorem exists_level (ts : List Token) :
    ∃ level us, ts = List.replicate level .dot ++ us ∧ us.head? ≠ some .dot := by
  induction ts with
  | nil => exact ⟨0, [], rfl, by simp⟩
  | cons t ts ih =>
    by_cases ht : t = .dot
    · obtain ⟨level, us, rfl, hhead⟩ := ih
      exact ⟨level + 1, us, by rw [ht, List.replicate_succ, List.cons_append], hhead⟩
    · exact ⟨0, t :: ts, rfl, by simpa using ht⟩

theorem ofOrigin_replicate (level : Nat) {ts : List Token} (hhead : ts.head? ≠ some .dot) :
    ofOrigin (List.replicate level .dot ++ ts) = (do
      let (base, rest) ← origin ts
      if level = 0 ∧ base = [] then .error .missingOrigin
      else match rest with
        | .name "import" :: rest => return members level base (← memberList rest)
        | _ => .error .missingImport) := by
  have hdots : ∀ t ∈ List.replicate level Token.dot, decide (t = .dot) = true := by
    intro t ht
    simpa using (List.mem_replicate.mp ht).2
  have htake : ts.takeWhile (fun t ↦ decide (t = .dot)) = [] := by
    cases ts with
    | nil => rfl
    | cons t ts => simpa using hhead
  have hdrop : ts.dropWhile (fun t ↦ decide (t = .dot)) = ts := by
    cases ts with
    | nil => rfl
    | cons t ts => simpa using hhead
  rewrite [ofOrigin, List.takeWhile_append_of_pos hdots, List.dropWhile_append_of_pos hdots, htake,
  hdrop,
    List.append_nil, List.length_replicate]
  rfl

theorem ofOrigin_eq_ok_iff {ts : List Token} {i : Import} :
    ofOrigin ts = .ok i ↔
      ∃ level names us, Members us names ∧
        ((0 < level ∧ ts = List.replicate level .dot ++ .name "import" :: us ∧
            i = members level [] names) ∨
          ∃ ds base, Dotted ds base ∧ ds.head? ≠ some (.name "import") ∧
            ts = List.replicate level .dot ++ ds ++ .name "import" :: us ∧
            i = members level base names) := by
  constructor
  · intro h
    obtain ⟨level, us, rfl, hhead⟩ := exists_level ts
    rw [ofOrigin_replicate level hhead] at h
    obtain ⟨⟨base, rest⟩, hbase, h⟩ := bind_eq_ok_iff.mp h
    dsimp only at h
    split at h
    case isTrue => simp at h
    case isFalse hbare =>
      split at h
      case h_1 vs =>
        obtain ⟨names, hnames, hi⟩ := bind_eq_ok_iff.mp h
        obtain rfl := Except.ok.inj hi
        refine ⟨level, names, vs, memberList_eq_ok_iff.mp hnames, ?_⟩
        rcases origin_eq_ok hbase with ⟨rfl, rfl⟩ | ⟨ds, hds, hword, rfl⟩
        · exact .inl ⟨by simpa [Nat.pos_iff_ne_zero] using hbare, rfl, rfl⟩
        · exact .inr ⟨ds, base, hds, hword, by rw [List.append_assoc], rfl⟩
      case h_2 => simp at h
  · have himport (us : List Token) : (Token.name "import" :: us).head? ≠ some .dot := by simp
    rintro ⟨level, names, us, hmembers, ⟨hlevel, rfl, rfl⟩ | ⟨ds, base, hds, hword, rfl, rfl⟩⟩
    · rw [ofOrigin_replicate level (himport us)]
      refine bind_eq_ok_iff.mpr ⟨([], .name "import" :: us), rfl, ?_⟩
      dsimp only
      rw [if_neg (by simp [hlevel.ne'])]
      exact bind_eq_ok_iff.mpr ⟨names, memberList_eq_ok_iff.mpr hmembers, rfl⟩
    · have hhead : (ds ++ Token.name "import" :: us).head? ≠ some .dot := by
        obtain ⟨n, vs, rfl⟩ := hds.exists_cons
        simp
      rw [List.append_assoc, ofOrigin_replicate level hhead]
      refine bind_eq_ok_iff.mpr ⟨_, origin_of_dotted hds hword (himport us), ?_⟩
      dsimp only
      rw [if_neg (by simp [hds.ne_nil])]
      exact bind_eq_ok_iff.mpr ⟨names, memberList_eq_ok_iff.mpr hmembers, rfl⟩

theorem names_members {base : List String} (hbase : base ≠ []) (level : Nat) (names : List String) :
    (members level base names).names =
      (dots level ++ paste '.' base) :: names.map fun n ↦ dots level ++ paste '.' base ++ "." ++
      n := by
  have hnonempty : base.isEmpty = false := by simpa using hbase
  simp [Import.names, hnonempty, dots]

theorem names_siblings (level : Nat) (names : List String) :
    (members level [] names).names = dots level :: names.map fun n ↦ dots level ++ n := by
  have hempty : paste '.' [] = "" := rfl
  simp [Import.names, hempty, dots]

/-- The import that a statement is, if its first word is one of the two, is the one that is
derived. -/
theorem ofTokens?_derives {ts : List Token} {parsed : Except Fault Import}
    (hparsed : ofTokens? ts = some parsed) {names : List String} :
    parsed.map Import.names = .ok names ↔ Derives ts names := by
  have hmap : parsed.map Import.names = .ok names ↔ ∃ i, parsed = .ok i ∧ i.names = names := by
    cases parsed <;> simp [Except.map]
  rw [hmap]
  rw [ofTokens?.eq_def] at hparsed
  split at hparsed
  · obtain rfl := Option.some.inj hparsed
    rw [derives_import_iff]
    simp only [ofModuleList_eq_ok_iff]
    constructor
    · rintro ⟨_, ⟨origins, horigins, rfl⟩, rfl⟩
      exact ⟨origins, horigins, rfl⟩
    · rintro ⟨origins, horigins, rfl⟩
      exact ⟨_, ⟨origins, horigins, rfl⟩, rfl⟩
  · obtain rfl := Option.some.inj hparsed
    simp only [ofOrigin_eq_ok_iff]
    constructor
    · rintro
        ⟨_, ⟨level, names, us, hmembers, ⟨hlevel, rfl, rfl⟩ | ⟨ds, base, hds, hword, rfl, rfl⟩⟩,
        rfl⟩
      · rw [names_siblings]
        exact .siblings level hlevel hmembers
      · rw [names_members hds.ne_nil]
        exact .members level hds hword hmembers
    · intro h
      obtain ⟨level, members, us, hmembers,
          ⟨hlevel, rfl, rfl⟩ | ⟨ds, base, hds, hword, rfl, rfl⟩⟩ :=
        exists_of_derives_from h
      · exact ⟨_, ⟨level, members, us, hmembers, .inl ⟨hlevel, rfl, rfl⟩⟩, names_siblings _ _⟩
      · exact ⟨_, ⟨level, members, us, hmembers, .inr ⟨ds, base, hds, hword, rfl, rfl⟩⟩,
          names_members hds.ne_nil _ _⟩
  · simp at hparsed

end Import

theorem importedNames_of_ofTokens? (scope : Scope) {ts : List Token} {parsed : Except Fault Import}
    (hparsed : Import.ofTokens? ts = some parsed) {names : List String} :
    importedNames scope ts = .ok names ↔ Grammar.Derives ts names := by
  rw [importedNames, hparsed]
  exact Import.ofTokens?_derives hparsed

theorem importedNames_import (scope : Scope) (ts : List Token) {names : List String} :
    importedNames scope (.name "import" :: ts) = .ok names ↔
      Grammar.Derives (.name "import" :: ts) names :=
  importedNames_of_ofTokens? scope (by rw [Import.ofTokens?])

/-- **The parser accepts exactly the grammar.** The imported names of a statement that begins with
one of the two words are those that its derivation stands for, and there are none to be had if it
has none. -/
theorem importedNames_eq_ok_iff (scope : Scope) {ts : List Token}
    (hword : ts.head? = some (.name "import") ∨ ts.head? = some (.name "from"))
    {names : List String} : importedNames scope ts = .ok names ↔ Grammar.Derives ts names := by
  rcases hword with hword | hword
  · obtain ⟨us, rfl⟩ := List.head?_eq_some_iff.mp hword
    exact importedNames_import scope us
  · obtain ⟨us, rfl⟩ := List.head?_eq_some_iff.mp hword
    exact importedNames_of_ofTokens? scope (by rw [Import.ofTokens?])

/-- `from ..pkg.import import (as as from, import,)`: the words of the statement stand for modules,
members and aliases too. -/
theorem importedNames_contextual :
    let ts : List Token :=
        [.name "from", .dot, .dot, .name "pkg", .dot, .name "import", .name "import",
      .opening .round, .name "as", .name "as", .name "from", .comma, .name "import", .comma,
      .closing .round]
    (ts.head? = some (.name "import") ∨ ts.head? = some (.name "from")) ∧
      importedNames .topLevel ts = .ok ["..pkg.import", "..pkg.import.as", "..pkg.import.import"] ∧
      Grammar.Derives ts ["..pkg.import", "..pkg.import.as", "..pkg.import.import"] := by
  intro ts
  have has : Grammar.MemberItem [.name "as", .name "as", .name "from"] "as" :=
    .mk "as" (.present "from")
  have hitems : Grammar.Listed Grammar.MemberItem
      [.name "as", .name "as", .name "from", .comma, .name "import"] ["as", "import"] :=
    .cons has (.single (.mk "import" .absent))
  have hderives : Grammar.Derives ts ["..pkg.import", "..pkg.import.as", "..pkg.import.import"] :=
    .members 2 (.cons "pkg" (.single "import")) (by simp) (.bracketed hitems (.inr rfl))
  exact ⟨.inr rfl, (importedNames_eq_ok_iff .topLevel (.inr rfl)).mpr hderives, hderives⟩

end ModuleReload.Source
