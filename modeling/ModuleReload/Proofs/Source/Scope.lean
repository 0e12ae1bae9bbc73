import ModuleReload.Proofs.Source.Layout

/-!
# The two scopes

Deep scope looks at every statement, and into the blocks that stand on the line of their compound
statement; top-level scope leaves these statements and blocks out. A statement that both look at is
refused in both or in neither. So what deep scope accepts, top-level scope accepts too, and finds
part of the names, in the same order (`imports_topLevel_sublist`).

What statements ask for is put together from what each of them asks for
(`importedBy_cons_of_covers`, `importedBy_append_eq_ok_iff`).
-/

namespace ModuleReload.Source

open Text

/-! ## What statements ask for -/

variable {scope : Scope} {s : Statement} {ss : List Statement} {ts : List Token}
  {names : List String}

theorem map_eq_ok_iff {ε α β : Type} {x : Except ε α} {f : α → β} {b : β} :
    x.map f = .ok b ↔ ∃ a, x = .ok a ∧ f a = b := by
  cases x <;> simp [Except.map]

theorem importedBy_cons_of_covers (hcovers : scope.covers s = true) :
    importedBy scope (s :: ss) = .ok names ↔
      ∃ first rest, importedNames scope s.tokens = .ok first ∧ importedBy scope ss = .ok rest ∧
        first ++ rest = names := by
  rw [importedBy, if_pos hcovers]
  cases importedNames scope s.tokens with
  | error fault => simp
  | ok first => simp [map_eq_ok_iff]

theorem importedBy_cons_of_not_covers (hcovers : scope.covers s = false) :
    importedBy scope (s :: ss) = importedBy scope ss := by
  rw [importedBy, if_neg (by simp [hcovers])]

/-- What statements after one another ask for is what the first ones ask for, and then what the
others do. -/
theorem importedBy_append_eq_ok_iff {ss₁ ss₂ : List Statement} :
    importedBy scope (ss₁ ++ ss₂) = .ok names ↔
      ∃ first rest, importedBy scope ss₁ = .ok first ∧ importedBy scope ss₂ = .ok rest ∧
      first ++ rest = names := by
  induction ss₁ generalizing names with
  | nil => simp [importedBy]
  | cons s ss₁ ih =>
    rw [List.cons_append]
    cases hcovers : scope.covers s with
    | false => rw [importedBy_cons_of_not_covers hcovers, importedBy_cons_of_not_covers hcovers, ih]
    | true =>
      simp only [importedBy_cons_of_covers hcovers, ih]
      constructor
      · rintro ⟨a, _, ha, ⟨b, c, hb, hc, rfl⟩, rfl⟩
        exact ⟨_, c, ⟨a, b, ha, hb, rfl⟩, hc, List.append_assoc a b c⟩
      · rintro ⟨_, c, ⟨a, b, ha, hb, rfl⟩, hc, rfl⟩
        exact ⟨a, _, ha, ⟨b, c, hb, hc, rfl⟩, (List.append_assoc a b c).symm⟩

theorem imports_eq_ok_iff {source : String} :
    imports scope source = .ok names ↔
      ∃ ss, statements (trimEnd source.toList) = .ok ss ∧ importedBy scope ss = .ok names := by
  rw [imports]
  cases statements (trimEnd source.toList) <;> simp

/-! ## Blocks -/

/-- In deep scope a compound statement asks for what the block on its line asks for. -/
theorem importedNames_of_blockBody {body : List Token} (hnone : Import.ofTokens? ts = none)
    (hcompound : Token.startsCompound ts = true) (hbody : Token.blockBody ts = some body) :
    importedNames .deep ts = importedNames .deep body := by
  rw [importedNames, hnone]
  dsimp only
  rw [if_pos ⟨rfl, hcompound⟩]
  split
  · next heq =>
    obtain rfl := Option.some.inj (heq.symm.trans hbody)
    rfl
  · next heq => simp [hbody] at heq

theorem importedNames_topLevel_of_none (hnone : Import.ofTokens? ts = none) :
    importedNames .topLevel ts = .ok [] := by
  rw [importedNames, hnone]
  rfl

/-- Statements are not looked into in top-level scope, unless they are imports. -/
theorem importedNames_topLevel_sublist {deep : List String}
    (h : importedNames .deep ts = .ok deep) :
    ∃ top, importedNames .topLevel ts = .ok top ∧ top.Sublist deep := by
  cases hparsed : Import.ofTokens? ts with
  | none => exact ⟨[], importedNames_topLevel_of_none hparsed, List.nil_sublist deep⟩
  | some parsed =>
    rw [importedNames, hparsed] at h ⊢
    exact ⟨deep, h, List.Sublist.refl deep⟩

theorem importedBy_topLevel_sublist {deep : List String} (h : importedBy .deep ss = .ok deep) :
    ∃ top, importedBy .topLevel ss = .ok top ∧ top.Sublist deep := by
  induction ss generalizing deep with
  | nil => exact ⟨[], rfl, List.nil_sublist deep⟩
  | cons s ss ih =>
    obtain ⟨first, rest, hfirst, hrest, rfl⟩ := (importedBy_cons_of_covers rfl).mp h
    obtain ⟨rest', hrest', hsub'⟩ := ih hrest
    cases hcovers : Scope.topLevel.covers s with
    | false =>
      refine ⟨rest', ?_, hsub'.trans (List.sublist_append_right first rest)⟩
      rw [importedBy_cons_of_not_covers hcovers, hrest']
    | true =>
      obtain ⟨first', hfirst', hsub⟩ := importedNames_topLevel_sublist hfirst
      exact ⟨first' ++ rest', (importedBy_cons_of_covers hcovers).mpr ⟨_, _, hfirst', hrest', rfl⟩,
        hsub.append hsub'⟩

/-- **Deep scope only adds to top-level scope.** A source that is accepted in deep scope is accepted
in top-level scope, and the names found there are found in deep scope in the same order and as
often, with others among them. -/
theorem imports_topLevel_sublist {source : String} {deep : List String}
    (h : imports .deep source = .ok deep) :
    ∃ top, imports .topLevel source = .ok top ∧ top.Sublist deep := by
  obtain ⟨ss, hss, hdeep⟩ := imports_eq_ok_iff.mp h
  obtain ⟨top, htop, hsub⟩ := importedBy_topLevel_sublist hdeep
  exact ⟨top, imports_eq_ok_iff.mpr ⟨ss, hss, htop⟩, hsub⟩

/-- The same import in a block on a line and on a line of its own. -/
theorem imports_topLevel_sublist_block :
    let word := ['i', 'm', 'p', 'o', 'r', 't', ' ', 'a']
    let source := ['i', 'f', ' ', 'x', ':'] ++ word ++ '\n' :: word
    imports .deep (String.ofList source) = .ok ["a", "a"] ∧
      ∃ top, imports .topLevel (String.ofList source) = .ok top ∧ top.Sublist ["a", "a"] := by
  intro word source
  have hif : Spells ['i', 'f'] (some ' ') (.token (.name "if")) :=
    .name (by decide) (by decide) (by decide) (by decide)
  have hx : Spells ['x'] (some ':') (.token (.name "x")) :=
    .name (by decide) rfl (by decide) (by decide)
  have hhead : Reads ['i', 'f', ' ', 'x', ':'] (some 'i')
      [.token (.name "if"), .blank, .token (.name "x"), .token .colon] :=
    .cons hif (.cons (.blank (.inl rfl) _) (.cons hx (.single (.mark (by decide) (by simp)))))
  have hline :
      Reads ('\n' :: word) none [.lineEnd, .token (.name "import"), .blank, .token (.name "a")] :=
    .cons (.lineEnd _) (reads_import_a (by simp))
  have hreads := Reads.append (hhead.append (reads_import_a (by simpa using by decide))) hline
  have hnames : importedNames .deep [.name "import", .name "a"] = .ok ["a"] := by
    rw [importedNames]
    rfl
  have hblock : importedNames .deep [.name "if", .name "x", .colon, .name "import", .name "a"] =
      .ok ["a"] := by
    rw [importedNames_of_blockBody rfl rfl rfl, hnames]
  have hdeep : imports .deep (String.ofList source) = .ok ["a", "a"] := by
    rw [imports, String.toList_ofList, show trimEnd source = source from by decide, statements,
      withoutMark_of_head (by decide), hreads.lexemes_eq]
    show importedBy .deep
      [⟨1, false, false, [.name "if", .name "x", .colon, .name "import", .name "a"]⟩,
      ⟨2, false, false, [.name "import", .name "a"]⟩] = _
    simp [importedBy, hnames, hblock, Scope.covers, Except.map]
  exact ⟨hdeep, imports_topLevel_sublist hdeep⟩

end ModuleReload.Source
