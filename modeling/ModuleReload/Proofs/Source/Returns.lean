import ModuleReload.Proofs.Source.LineEnds

/-!
# Carriage returns before line ends

A source with carriage returns before all its line ends falls into the same statements, up to the
contents of literals (`statements_withReturns`), and so has the same imports, unless there is a
literal that they leave open, or the source is refused on the very line of that literal
(`imports_withReturns_agree_iff`). `splitLine?` computes where the first of these literals is.
-/

namespace ModuleReload.Source

open Text

/-! ## Statements -/

/-- The statement with carriage returns before the line ends of its literals. -/
def Statement.withReturns (s : Statement) : Statement :=
  { s with tokens := s.tokens.map Token.withReturns }

namespace Assembly

/-- The assembly with carriage returns before the line ends of its literals. -/
def withReturns (a : Assembly) : Assembly :=
  { a with complete := a.complete.map Statement.withReturns, draft := a.draft.withReturns }

theorem settled_withReturns (a : Assembly) :
    a.withReturns.settled = a.settled.map Statement.withReturns := by
  have htokens : a.withReturns.draft.tokens = a.draft.tokens.map Token.withReturns := rfl
  rw [settled, settled, htokens, List.isEmpty_map]
  split
  · rfl
  · simp [withReturns, Statement.withReturns]

theorem push_withReturns (a : Assembly) (t : Token) :
    a.withReturns.push t.withReturns = (a.push t).withReturns := by
  simp [push, withReturns, Statement.withReturns]

end Assembly

theorem Token.blur_withReturns (t : Token) : t.withReturns.blur = t.blur := by
  cases t <;> rfl

theorem Token.map_blur_withReturns (ts : List Token) :
    (ts.map Token.withReturns).map Token.blur = ts.map Token.blur := by
  rw [List.map_map]
  exact List.map_congr_left fun t _ ↦ t.blur_withReturns

theorem Token.opensBlock_withReturns (ts : List Token) :
    opensBlock (ts.map Token.withReturns) = opensBlock ts := by
  rw [← opensBlock_map_blur, map_blur_withReturns, opensBlock_map_blur]

theorem Assembly.step_withReturns (a : Assembly) (line : Nat) (l : Lexeme) :
    a.withReturns.step line l.withReturns = (a.step line l).map Assembly.withReturns := by
  have hopens :
      Token.opensBlock a.withReturns.draft.tokens.reverse =
        Token.opensBlock a.draft.tokens.reverse := by
    rw [← Token.opensBlock_withReturns a.draft.tokens.reverse, List.map_reverse]
    rfl
  have hwaiting : a.withReturns.waiting = a.waiting := rfl
  cases l with
  | carriageReturn | comment | continuation | blank | malformed => rfl
  | lineEnd =>
    simp only [step, Lexeme.withReturns, hwaiting, settled_withReturns]
    split <;> rfl
  | semicolon =>
    simp only [step, Lexeme.withReturns, hwaiting, settled_withReturns, hopens]
    split
    · rfl
    · exact congrArg Except.ok (a.push_withReturns .other)
  | token t =>
    cases t with
    | opening b => rfl
    | closing b =>
      simp only [step, Lexeme.withReturns, Token.withReturns, hwaiting]
      split
      · rfl
      · split <;> rfl
    | _ => exact congrArg Except.ok (a.push_withReturns _)

/-- The line of the first literal between single quotes that goes over a line end, as a text is read
on from an assembly on a line. There is none if something is refused before. -/
def splitLine? (a : Assembly) (line : Nat) : List Char → Option Nat
  | [] => none
  | c :: cs =>
    if splits c cs then some line
    else match a.step line (lexeme c cs).1 with
      | .ok b => splitLine? b (line + (lexeme c cs).1.height) (lexeme c cs).2
      | .error _ => none
termination_by cs => cs.length
decreasing_by exact Nat.lt_succ_of_le (length_lexeme c cs)

theorem count_withReturns (cs : List Char) : (withReturns cs).count '\n' = cs.count '\n' := by
  induction cs with
  | nil => rfl
  | cons c cs ih =>
    by_cases hc : c = '\n'
    · subst hc
      rw [withReturns_newline, List.count_cons_of_ne (by decide), List.count_cons_self,
        List.count_cons_self, ih]
    · rw [withReturns_cons hc, List.count_cons_of_ne hc, List.count_cons_of_ne hc, ih]

theorem Lexeme.height_withReturns (l : Lexeme) : l.withReturns.height = l.height := by
  cases l with
  | token t =>
    cases t with
    | literal contents => simp [withReturns, Token.withReturns, height, count_withReturns]
    | _ => rfl
  | _ => rfl

theorem mem_of_mem_lexeme {a b : Assembly} {line : Nat} {c d : Char} {cs : List Char}
    (hstep : a.step line (lexeme c cs).1 = .ok b) (hd : d ∈ (lexeme c cs).2) : d ∈ cs := by
  have hread : ∀ fault, (lexeme c cs).1 ≠ .malformed fault := by
    intro fault hfault
    simp [hfault, Assembly.step] at hstep
  obtain ⟨mid, hmid, -⟩ := exists_spells (rfl : lexeme c cs = lexeme c cs) hread
  rw [hmid]
  exact List.mem_append_right mid hd

theorem Assembly.run_return (a : Assembly) (line : Nat) (cs : List Char) :
    a.run (lexemes line ('\r' :: '\n' :: cs)) = a.run (lexemes line ('\n' :: cs)) := by
  have hreturn :
      lexemes line ('\r' :: '\n' :: cs) = (line, .carriageReturn) :: lexemes line ('\n' :: cs) := by
    rw [lexemes]
    rfl
  have hend : lexemes line ('\n' :: cs) = (line, .lineEnd) :: lexemes (line + 1) cs := by
    rw [lexemes]
    rfl
  rw [hreturn, hend, run_cons, run_cons]
  rfl

/-- The first lexeme of a text with carriage returns, if the literal that it may be does not go over
a line end. -/
theorem Assembly.run_withReturns_cons (a : Assembly) (line : Nat) {c : Char} {cs : List Char}
    (hreturn : '\r' ∉ c :: cs) (hwhole : splits c cs = false) :
    a.run (lexemes line (Source.withReturns (c :: cs))) =
      a.step line (lexeme c cs).1.withReturns >>= fun b ↦
        b.run (lexemes (line + (lexeme c cs).1.height) (Source.withReturns (lexeme c cs).2)) := by
  by_cases hc : c = '\n'
  · subst hc
    rw [withReturns_newline, run_return, lexemes, run_cons]
    rfl
  have hlexeme := lexeme_withReturns hc hreturn
  rw [hwhole, if_neg (by decide)] at hlexeme
  rw [withReturns_cons hc, lexemes, hlexeme, run_cons, Lexeme.height_withReturns]
  by_cases hcomment : c = '#'
  · subst hcomment
    -- The comment has taken up the carriage return.
    have hrest : (lexeme '#' cs).2 = cs.dropWhile (· ≠ '\n') := rfl
    have hhead := any_head?_dropWhile (· ≠ '\n') cs
    rw [if_pos rfl, hrest]
    cases hback : cs.dropWhile (· ≠ '\n') with
    | nil => rfl
    | cons d back =>
      rw [hback] at hhead
      obtain rfl : d = '\n' := by simpa using hhead
      rw [withReturns_newline]
      simp only [run_return]
      rfl
  · rw [if_neg hcomment]

theorem splits_newline (cs : List Char) : splits '\n' cs = false := rfl

/-- **A text with carriage returns** is read as the text, up to the first literal that they leave
open. -/
theorem Assembly.run_withReturns (a : Assembly) (line : Nat) {cs : List Char}
    (hreturn : '\r' ∉ cs) :
    a.withReturns.run (lexemes line (Source.withReturns cs)) =
      match splitLine? a line cs with
      | some n => .error ⟨n, .openLiteral⟩
      | none => (a.run (lexemes line cs)).map Assembly.withReturns := by
  fun_induction splitLine? a line cs with
  | case1 =>
    simp only [Source.withReturns, lexemes]
    rfl
  | case2 a line c cs hsplits =>
    have hc : c ≠ '\n' := by
      rintro rfl
      rw [splits_newline] at hsplits
      exact absurd hsplits (by decide)
    have hopen := lexeme_withReturns hc hreturn
    rw [hsplits, if_pos rfl] at hopen
    rw [withReturns_cons hc, lexemes, hopen]
    rfl
  | case3 a line c cs hwhole b hstep ih =>
    rw [run_withReturns_cons _ _ hreturn (by simpa using hwhole), step_withReturns, hstep, lexemes,
      run_cons, hstep]
    exact ih fun hmem ↦ hreturn (List.mem_cons_of_mem _ (mem_of_mem_lexeme hstep hmem))
  | case4 a line c cs hwhole e hstep =>
    rw [run_withReturns_cons _ _ hreturn (by simpa using hwhole), step_withReturns, hstep, lexemes,
      run_cons, hstep]
    rfl

theorem Assembly.finish_withReturns (a : Assembly) :
    a.withReturns.finish = a.finish.map (List.map Statement.withReturns) := by
  have hwaiting : a.withReturns.waiting = a.waiting := rfl
  rw [finish, finish, hwaiting]
  split
  · rfl
  · rw [settled_withReturns, ← List.map_reverse]
    rfl

/-- The line of the first literal between single quotes that goes over a line end, if nothing is
refused before it. The blanks at the end of a source are not looked at. -/
def firstSplitLine? (source : String) : Option Nat :=
  splitLine? .start 1 (withoutMark (trimEnd source.toList))

/-- The source with a carriage return before each line end. -/
def sourceWithReturns (source : String) : String :=
  String.ofList (withReturns source.toList)

theorem statements_withReturns {source : String} (hreturn : '\r' ∉ source.toList) :
    statements (trimEnd (sourceWithReturns source).toList) =
      match firstSplitLine? source with
      | some n => .error ⟨n, .openLiteral⟩
      | none => (statements (trimEnd source.toList)).map (List.map Statement.withReturns) := by
  have hreturn' : '\r' ∉ withoutMark (trimEnd source.toList) := by
    intro hmem
    refine hreturn (mem_of_mem_trimEnd ?_)
    rw [withoutMark.eq_def] at hmem
    split at hmem
    · next h => exact h ▸ List.mem_cons_of_mem _ hmem
    · exact hmem
  have hrun := Assembly.run_withReturns .start 1 hreturn'
  have hstart : Assembly.start.withReturns = Assembly.start := rfl
  rw [sourceWithReturns, String.toList_ofList, trimEnd_withReturns,
    statements, withoutMark_withReturns, ← hstart, hrun, statements, firstSplitLine?]
  cases splitLine? .start 1 (withoutMark (trimEnd source.toList)) with
  | some n => rfl
  | none =>
    dsimp only
    cases Assembly.start.run (lexemes 1 (withoutMark (trimEnd source.toList))) with
    | error e => rfl
    | ok a => exact a.finish_withReturns

/-! ## Imports -/

theorem mapError_map {ε ε' α β : Type} (f : α → β) (g : ε → ε') (x : Except ε α) :
    (x.map f).mapError g = (x.mapError g).map f := by
  cases x <;> rfl

/-- What statements ask for, and the line on which they are refused, does not depend on their
literals. -/
theorem importedBy_withReturns (scope : Scope) (ss : List Statement) :
    (importedBy scope (ss.map Statement.withReturns)).mapError SyntaxError.line =
      (importedBy scope ss).mapError SyntaxError.line := by
  induction ss with
  | nil => rfl
  | cons s ss ih =>
    have hcovers : scope.covers s.withReturns = scope.covers s := rfl
    have hnames :
        (importedNames scope s.withReturns.tokens).toOption =
          (importedNames scope s.tokens).toOption := by
      rw [← importedNames_map_blur scope s.tokens, ← Token.map_blur_withReturns,
        importedNames_map_blur]
      rfl
    rw [List.map_cons, importedBy, importedBy, hcovers]
    split
    case isFalse => exact ih
    case isTrue =>
      cases hleft : importedNames scope s.withReturns.tokens with
      | error fault =>
        cases hright : importedNames scope s.tokens with
        | error fault' => rfl
        | ok names => simp [hleft, hright, Except.toOption] at hnames
      | ok names =>
        cases hright : importedNames scope s.tokens with
        | error fault => simp [hleft, hright, Except.toOption] at hnames
        | ok names' =>
          obtain rfl : names = names' := by simpa [hleft, hright, Except.toOption] using hnames
          dsimp only
          rw [mapError_map, mapError_map, ih]

/-- **Carriage returns before line ends** leave a source open at its first literal between single
quotes that goes over a line end. They change neither its imports nor the line on which it is
refused, unless there is such a literal and that is not the line. -/
theorem imports_withReturns_agree_iff (scope : Scope) {source : String}
    (hreturn : '\r' ∉ source.toList) :
    (∀ n, firstSplitLine? source = some n →
      imports scope (sourceWithReturns source) = .error ⟨n, .openLiteral⟩) ∧
    ((imports scope (sourceWithReturns source)).mapError SyntaxError.line =
        (imports scope source).mapError SyntaxError.line ↔
      ∀ n, firstSplitLine? source = some n →
        (imports scope source).mapError SyntaxError.line = .error n) := by
  have hstatements := statements_withReturns hreturn
  cases hsplit : firstSplitLine? source with
  | some n =>
    rw [hsplit] at hstatements
    have hopen : imports scope (sourceWithReturns source) = .error ⟨n, .openLiteral⟩ := by
      rw [imports, hstatements]
    refine ⟨?_, ?_⟩
    · rintro _ ⟨⟩
      exact hopen
    · rw [hopen]
      constructor
      · rintro hagree _ ⟨⟩
        exact hagree.symm
      · intro hline
        exact (hline n rfl).symm
  | none =>
    rw [hsplit] at hstatements
    refine ⟨by simp, iff_of_true ?_ (by simp)⟩
    rw [imports, imports, hstatements]
    cases statements (trimEnd source.toList) with
    | error e => rfl
    | ok ss => exact importedBy_withReturns scope ss

/-- A literal over two lines, and an import on the second of them. -/
theorem imports_withReturns_open :
    let source := ['\'', '\\', '\n', '\'', ';', 'i', 'm', 'p', 'o', 'r', 't', ' ', 'a']
    imports .topLevel (String.ofList source) = .ok ["a"] ∧
      imports .topLevel (sourceWithReturns (String.ofList source)) = .error ⟨1, .openLiteral⟩ := by
  intro source
  have hline : firstSplitLine? (String.ofList source) = some 1 := by
    rw [firstSplitLine?, String.toList_ofList, show withoutMark (trimEnd source) =
      source from by decide, splitLine?, if_pos (by decide)]
  have hreturn : '\r' ∉ (String.ofList source).toList := by
    rw [String.toList_ofList]
    decide
  have hopen := (imports_withReturns_agree_iff .topLevel hreturn).1 1 hline
  refine ⟨?_, hopen⟩
  have hliteral :
      Reads ['\'', '\\', '\n', '\''] (some ';') [.token (.literal (String.ofList ['\\', '\n']))] :=
    .single (.literal .absent (by decide : isQuote '\'' = true) (.line (.escape '\n' .nil))
      (by simp))
  have hreads : Reads source none ([.token (.literal (String.ofList ['\\', '\n']))] ++
      [.semicolon, .token (.name "import"), .blank, .token (.name "a")]) :=
    .append hliteral (.cons (.semicolon _) (reads_import_a (by simp)))
  have hnone : importedNames .topLevel [.literal (String.ofList ['\\', '\n'])] = .ok [] := by
    rw [importedNames]
    rfl
  have hnames : importedNames .topLevel [.name "import", .name "a"] = .ok ["a"] := by
    rw [importedNames]
    rfl
  rw [imports, String.toList_ofList, show trimEnd source = source from by decide, statements,
    withoutMark_of_head (by decide), hreads.lexemes_eq]
  show importedBy .topLevel [⟨1, false, false, [.literal (String.ofList ['\\', '\n'])]⟩,
    ⟨2, false, false, [.name "import", .name "a"]⟩] = _
  simp [importedBy, hnone, hnames, Scope.covers, Statement.isTopLevel, Except.map]

end ModuleReload.Source
