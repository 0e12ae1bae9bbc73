import ModuleReload.Proofs.Source.Layout

/-!
# Line ends with carriage returns

Lines may end in a line end alone or in a carriage return and a line end. With carriage returns
before all its line ends (`withReturns`) a text falls into the same lexemes, up to the contents of
literals (`lexeme_withReturns`). There is one exception. A literal between single quotes may go on
behind a backslash at the end of a line; with a carriage return in between, the backslash takes
that, and the line end leaves the literal open (`lineLiteral_withReturns`). `splits` tells these
literals.
-/

namespace ModuleReload.Source

open Text

/-! ## Texts -/

/-- The text with a carriage return before each line end. -/
def withReturns : List Char → List Char
  | [] => []
  | c :: cs => if c = '\n' then '\r' :: '\n' :: withReturns cs else c :: withReturns cs

theorem withReturns_newline (cs : List Char) :
    withReturns ('\n' :: cs) = '\r' :: '\n' :: withReturns cs := rfl

theorem withReturns_cons {c : Char} (hc : c ≠ '\n') (cs : List Char) :
    withReturns (c :: cs) = c :: withReturns cs :=
  if_neg hc

theorem withReturns_append (front back : List Char) :
    withReturns (front ++ back) = withReturns front ++ withReturns back := by
  induction front with
  | nil => rfl
  | cons c cs ih =>
    by_cases hc : c = '\n'
    · subst hc
      rw [List.cons_append, withReturns_newline, withReturns_newline, ih]
      rfl
    · rw [List.cons_append, withReturns_cons hc, withReturns_cons hc, ih]
      rfl

theorem withReturns_of_not_mem {cs : List Char} (h : '\n' ∉ cs) : withReturns cs = cs := by
  induction cs with
  | nil => rfl
  | cons c cs ih =>
    obtain ⟨hc, hcs⟩ := not_or.mp (mt List.mem_cons.mpr h)
    rw [withReturns_cons (Ne.symm hc), ih hcs]

theorem head?_any_withReturns {p : Char → Bool} (hreturn : p '\r' = p '\n') (cs : List Char) :
    (withReturns cs).head?.any p = cs.head?.any p := by
  cases cs with
  | nil => rfl
  | cons c cs =>
    by_cases hc : c = '\n'
    · subst hc
      exact hreturn
    · rw [withReturns_cons hc]
      rfl

theorem dropWhile_withReturns {p : Char → Bool} (hend : p '\n' = false) (hreturn : p '\r' = false)
    (cs : List Char) : (withReturns cs).dropWhile p = withReturns (cs.dropWhile p) := by
  induction cs with
  | nil => rfl
  | cons c cs ih =>
    by_cases hc : c = '\n'
    · subst hc
      rw [withReturns_newline, List.dropWhile_cons_of_neg (by simp [hreturn]),
        List.dropWhile_cons_of_neg (by simp [hend]), withReturns_newline]
    · rw [withReturns_cons hc]
      cases hp : p c with
      | true => rw [List.dropWhile_cons_of_pos hp, List.dropWhile_cons_of_pos hp, ih]
      | false =>
        rw [List.dropWhile_cons_of_neg (by simp [hp]), List.dropWhile_cons_of_neg (by simp [hp]),
          withReturns_cons hc]

theorem takeWhile_withReturns {p : Char → Bool} (hend : p '\n' = false) (hreturn : p '\r' = false)
    (cs : List Char) : (withReturns cs).takeWhile p = cs.takeWhile p := by
  induction cs with
  | nil => rfl
  | cons c cs ih =>
    by_cases hc : c = '\n'
    · subst hc
      rw [withReturns_newline, List.takeWhile_cons_of_neg (by simp [hreturn]),
        List.takeWhile_cons_of_neg (by simp [hend])]
    · rw [withReturns_cons hc]
      cases hp : p c with
      | true => rw [List.takeWhile_cons_of_pos hp, List.takeWhile_cons_of_pos hp, ih]
      | false =>
        rw [List.takeWhile_cons_of_neg (by simp [hp]), List.takeWhile_cons_of_neg (by simp [hp])]

theorem withReturns_eq_nil_iff {cs : List Char} : withReturns cs = [] ↔ cs = [] := by
  cases cs with
  | nil => simp [withReturns]
  | cons c cs =>
    rw [withReturns]
    split <;> simp

theorem withoutMark_withReturns (cs : List Char) :
    withoutMark (withReturns cs) = withReturns (withoutMark cs) := by
  cases cs with
  | nil => rfl
  | cons c cs =>
    by_cases hc : c = '\n'
    · subst hc
      rfl
    rw [withReturns_cons hc]
    by_cases hmark : c = '\uFEFF'
    · subst hmark
      rfl
    · rw [withoutMark_of_head (by simpa using hmark), withoutMark_of_head (by simpa using hmark),
        withReturns_cons hc]

/-- A carriage return is a blank, as a line end is, so the same is cut off at the end. -/
theorem trimEnd_withReturns (cs : List Char) :
    trimEnd (withReturns cs) = withReturns (trimEnd cs) := by
  induction cs with
  | nil => rfl
  | cons c cs ih =>
    have hone : trimEnd (withReturns [c]) = withReturns (trimEnd [c]) := by
      by_cases hc : c = '\n'
      · subst hc
        rfl
      · rw [withReturns_of_not_mem (by simpa using Ne.symm hc), withReturns_of_not_mem]
        exact fun hmem ↦ hc (List.mem_singleton.mp (mem_of_mem_trimEnd hmem)).symm
    rw [← List.singleton_append, withReturns_append, trimEnd_append, trimEnd_append, ih]
    simp only [withReturns_eq_nil_iff]
    split
    · exact hone
    · rw [withReturns_append]

/-! ## Lexemes -/

/-- The token with carriage returns before the line ends of a literal. -/
def Token.withReturns : Token → Token
  | literal contents => literal (String.ofList (Source.withReturns contents.toList))
  | t => t

/-- The lexeme with carriage returns before the line ends of a literal. -/
def Lexeme.withReturns : Lexeme → Lexeme
  | token t => token t.withReturns
  | l => l

/-- Whether the literal whose first quote has just been read ends at a single quote on a later
line. -/
def literalSplits (quote : Char) (cs : List Char) : Bool :=
  decide (cs.take 2 ≠ [quote, quote]) && (lineLiteral quote cs).any (·.1.contains '\n')

/-- Whether a literal between single quotes, with what marks it, begins with `c` and ends on a later
line. -/
def splits (c : Char) (cs : List Char) : Bool :=
  if isQuote c then literalSplits c cs
  else if startsName c then
    match cs.dropWhile continuesName with
    | quote :: rest => isQuote quote &&
        literalMarks.contains ((c :: cs.takeWhile continuesName).map Char.toLower) && literalSplits
        quote rest
    | [] => false
  else false

theorem lineLiteral_cons {q c : Char} (hc : c ≠ q) (hend : c ≠ '\n') (hslash : c ≠ '\\')
    (cs : List Char) :
    lineLiteral q (c :: cs) = (lineLiteral q cs).map fun r ↦ (c :: r.1, r.2) := by
  rw [lineLiteral.eq_def]
  split <;> simp_all

/-- A literal that goes over a line end is left open by a carriage return before that. -/
theorem lineLiteral_withReturns {q : Char} (hq : isQuote q = true) (cs : List Char) :
    lineLiteral q (withReturns cs) =
      (lineLiteral q cs).bind fun r ↦ if '\n' ∈ r.1 then none else some (r.1, withReturns r.2) := by
  -- What is read before the rest of the literal makes no difference unless it is a line end.
  have hbefore (front : List Char) (hfront : '\n' ∉ front) (o : Option (List Char × List Char)) :
      (o.bind fun r ↦ if '\n' ∈ r.1 then none else some (r.1, withReturns r.2)).map
          (fun r ↦ (front ++ r.1, r.2)) =
        (o.map fun r ↦ (front ++ r.1, r.2)).bind fun r ↦
          if '\n' ∈ r.1 then none else some (r.1, withReturns r.2) := by
    cases o with
    | none => rfl
    | some r =>
      have hmem : '\n' ∈ front ++ r.1 ↔ '\n' ∈ r.1 := by simp [hfront]
      simp only [Option.map_some, Option.bind_some, hmem]
      split <;> rfl
  have hreturn : '\r' ≠ q := by
    rintro rfl
    exact absurd hq (by decide)
  fun_induction lineLiteral q cs with
  | case1 => rfl
  | case2 cs =>
    rw [withReturns_newline]
    simp [lineLiteral, hreturn]
  | case3 c cs ih =>
    rw [withReturns_cons (by decide)]
    by_cases hc : c = '\n'
    · subst hc
      rw [withReturns_newline]
      cases lineLiteral q cs <;> simp [lineLiteral]
    · rw [withReturns_cons hc, lineLiteral, ih]
      exact hbefore ['\\', c] (by simpa using Ne.symm hc) _
  | case4 cs hend =>
    have hbody : lineLiteral q (q :: withReturns cs) = some ([], withReturns cs) :=
      lineLiteral_of_body hq .nil _
    rw [withReturns_cons fun h ↦ hend h, hbody]
    rfl
  | case5 c cs hend hslash hc ih =>
    have hend' : c ≠ '\n' := fun h ↦ hend h
    rw [withReturns_cons hend']
    by_cases hback : c = '\\'
    · subst hback
      cases cs with
      | nil => simp [withReturns, lineLiteral, hc]
      | cons d cs => exact absurd rfl (hslash d cs rfl)
    · rw [lineLiteral_cons hc hend' hback, ih]
      exact hbefore [c] (by simpa using Ne.symm hend') _

theorem blockLiteral_cons {q c : Char} {cs : List Char} (hslash : c ≠ '\\')
    (hend : ¬(c = q ∧ cs.take 2 = [q, q])) :
    blockLiteral q (c :: cs) = (blockLiteral q cs).map fun r ↦ (c :: r.1, r.2) := by
  rw [blockLiteral.eq_def]
  split <;> simp_all

theorem withReturns_quote {q : Char} (hq : isQuote q = true) (cs : List Char) :
    withReturns (q :: cs) = q :: withReturns cs := by
  refine withReturns_cons ?_ cs
  rintro rfl
  exact absurd hq (by decide)

theorem take_two_withReturns {q : Char} (hq : isQuote q = true) (cs : List Char) :
    (withReturns cs).take 2 = [q, q] ↔ cs.take 2 = [q, q] := by
  have hreturn : '\r' ≠ q := by
    rintro rfl
    exact absurd hq (by decide)
  have hend : '\n' ≠ q := by
    rintro rfl
    exact absurd hq (by decide)
  match cs with
  | [] => rfl
  | [c] =>
    rw [withReturns]
    split <;> simp [withReturns, hreturn]
  | c :: d :: cs =>
    rw [withReturns, withReturns]
    split
    · next hc => simp [hc, hend, hreturn]
    split
    · next hd => simp [hd, hend, hreturn]
    · simp

/-- A literal between three quotes goes on over line ends, with or without carriage returns. -/
theorem blockLiteral_withReturns {q : Char} (hq : isQuote q = true) (cs : List Char) :
    blockLiteral q (withReturns cs) =
      (blockLiteral q cs).map fun r ↦ (withReturns r.1, withReturns r.2) := by
  have hreturn : '\r' ≠ q := by
    rintro rfl
    exact absurd hq (by decide)
  have hend : '\n' ≠ q := by
    rintro rfl
    exact absurd hq (by decide)
  fun_induction blockLiteral q cs with
  | case1 => rfl
  | case2 c cs ih =>
    rw [withReturns_cons (by decide)]
    by_cases hc : c = '\n'
    · subst hc
      rw [withReturns_newline, blockLiteral, blockLiteral_cons (by decide) fun h ↦ hend h.1, ih]
      cases blockLiteral q cs with
      | none => rfl
      | some r => simp [withReturns]
    · rw [withReturns_cons hc, blockLiteral, ih]
      cases blockLiteral q cs with
      | none => rfl
      | some r => simp [withReturns, hc]
  | case3 c cs _ hquotes =>
    obtain ⟨rfl, htwo⟩ := hquotes
    obtain ⟨rest, rfl⟩ : ∃ rest, cs = c :: c :: rest :=
      ⟨cs.drop 2, by rw [← List.take_append_drop 2 cs, htwo]; simp⟩
    rw [withReturns_quote hq, withReturns_quote hq, withReturns_quote hq]
    exact blockLiteral_of_body hq .nil _
  | case4 c cs hslash hquotes ih =>
    by_cases hc : c = '\n'
    · subst hc
      rw [withReturns_newline, blockLiteral_cons (by decide) fun h ↦ hreturn h.1,
        blockLiteral_cons (by decide) fun h ↦ hend h.1, ih]
      cases blockLiteral q cs with
      | none => rfl
      | some r => simp [withReturns]
    rw [withReturns_cons hc]
    by_cases hback : c = '\\'
    · subst hback
      cases cs with
      | nil => simp [withReturns, blockLiteral]
      | cons d cs => exact absurd rfl (hslash d cs rfl)
    · rw [blockLiteral_cons hback (by rwa [take_two_withReturns hq]), ih]
      cases blockLiteral q cs with
      | none => rfl
      | some r => simp [withReturns, hc]

theorem literal_withReturns {q : Char} (hq : isQuote q = true) (cs : List Char) :
    literal q (withReturns cs) =
      if literalSplits q cs then (.malformed .openLiteral, [])
      else ((literal q cs).1.withReturns, withReturns (literal q cs).2) := by
  by_cases hblock : cs.take 2 = [q, q]
  · obtain ⟨rest, rfl⟩ : ∃ rest, cs = q :: q :: rest :=
      ⟨cs.drop 2, by rw [← List.take_append_drop 2 cs, hblock]; simp⟩
    have hwhole : literalSplits q (q :: q :: rest) = false := by simp [literalSplits]
    have htwo : (q :: q :: withReturns rest).take 2 = [q, q] := by simp
    rw [hwhole, withReturns_quote hq, withReturns_quote hq, literal, literal, if_pos htwo,
      if_pos hblock]
    simp only [List.drop_succ_cons, List.drop_zero, blockLiteral_withReturns hq]
    cases blockLiteral q rest with
    | none => rfl
    | some r => simp [Lexeme.withReturns, Token.withReturns]
  · have hsplits : literalSplits q cs = (lineLiteral q cs).any (·.1.contains '\n') := by
      simp [literalSplits, hblock]
    rw [hsplits, literal, literal, if_neg (by rwa [take_two_withReturns hq]), if_neg hblock,
      lineLiteral_withReturns hq]
    cases lineLiteral q cs with
    | none => rfl
    | some r =>
      by_cases hend : '\n' ∈ r.1
      · simp [hend]
      · simp [hend, Lexeme.withReturns, Token.withReturns, withReturns_of_not_mem hend]

theorem continuesName_newline : continuesName '\n' = false := by decide

theorem continuesName_return : continuesName '\r' = false := by decide

theorem isQuote_of_startsName {c : Char} (hc : startsName c = true) : isQuote c = false := by
  rw [Bool.eq_false_iff]
  intro hq
  rcases isQuote_iff.mp hq with rfl | rfl <;> exact absurd hc (by decide)

theorem splits_of_isQuote {c : Char} (hq : isQuote c = true) (cs : List Char) :
    splits c cs = literalSplits c cs :=
  if_pos hq

theorem splits_of_startsName {c : Char} (hc : startsName c = true) (cs : List Char) :
    splits c cs =
      match cs.dropWhile continuesName with
      | quote :: rest => isQuote quote &&
          literalMarks.contains ((c :: cs.takeWhile continuesName).map Char.toLower) &&
          literalSplits quote rest
      | [] => false := by
  rw [splits, if_neg (by simp [isQuote_of_startsName hc]), if_pos hc]

theorem word_withReturns {c : Char} (hc : startsName c = true) (cs : List Char) :
    word c (withReturns cs) =
      if splits c cs then (.malformed .openLiteral, [])
      else ((word c cs).1.withReturns, withReturns (word c cs).2) := by
  rw [word, word, splits_of_startsName hc,
    takeWhile_withReturns continuesName_newline continuesName_return,
    dropWhile_withReturns continuesName_newline continuesName_return]
  cases cs.dropWhile continuesName with
  | nil => simp [withReturns, Lexeme.withReturns, Token.withReturns]
  | cons d rest =>
    by_cases hd : d = '\n'
    · subst hd
      have hend : isQuote '\n' = false := by decide
      have hreturn : isQuote '\r' = false := by decide
      rw [withReturns_newline]
      simp [hend, hreturn, Lexeme.withReturns, Token.withReturns, withReturns_newline]
    · rw [withReturns_cons hd]
      dsimp only
      by_cases hmark : isQuote d = true ∧
          literalMarks.contains ((c :: cs.takeWhile continuesName).map Char.toLower) = true
      · rw [if_pos hmark, if_pos hmark, literal_withReturns hmark.1]
        simp only [hmark.1, hmark.2, Bool.true_and]
      · have hname :
            (isQuote d && literalMarks.contains
                ((c :: cs.takeWhile continuesName).map Char.toLower)) =
            false := by
          rwa [← Bool.not_eq_true, Bool.and_eq_true]
        rw [if_neg hmark, if_neg hmark]
        simp only [hname, Bool.false_and]
        simp [Lexeme.withReturns, Token.withReturns, withReturns_cons hd]

theorem continued_of_ne {c : Char} (hend : c ≠ '\n') (hreturn : c ≠ '\r') (cs : List Char) :
    continued (c :: cs) = (.malformed .strayBackslash, []) := by
  rw [continued.eq_def]
  split <;> simp_all

theorem continued_withReturns {cs : List Char} (hreturn : '\r' ∉ cs) :
    continued (withReturns cs) = ((continued cs).1.withReturns, withReturns (continued cs).2) := by
  cases cs with
  | nil => rfl
  | cons c cs =>
    by_cases hc : c = '\n'
    · subst hc
      rfl
    · have hc' : c ≠ '\r' := fun h ↦ hreturn (h ▸ List.mem_cons_self)
      rw [withReturns_cons hc, continued_of_ne hc hc', continued_of_ne hc hc']
      rfl

theorem dropWhile_comment_withReturns (cs : List Char) :
    (withReturns cs).dropWhile (· ≠ '\n') = (withReturns (cs.dropWhile (· ≠ '\n'))).drop 1 := by
  induction cs with
  | nil => rfl
  | cons c cs ih =>
    by_cases hc : c = '\n'
    · subst hc
      rfl
    · rw [withReturns_cons hc, List.dropWhile_cons_of_pos (by simpa using hc),
        List.dropWhile_cons_of_pos (by simpa using hc), ih]

theorem mark_withReturns (c : Char) : (mark c).withReturns = mark c := by
  rw [mark.eq_def]
  split
  · rfl
  · rfl
  · split <;> rfl

/-- **One lexeme.** It is the same with carriage returns in its literal, or it is left open. A
comment takes up the carriage return of its line. -/
theorem lexeme_withReturns {c : Char} {cs : List Char} (hc : c ≠ '\n') (hreturn : '\r' ∉ c :: cs) :
    lexeme c (withReturns cs) =
      if splits c cs then (.malformed .openLiteral, [])
      else ((lexeme c cs).1.withReturns,
        if c = '#' then (withReturns (lexeme c cs).2).drop 1 else withReturns (lexeme c cs).2) := by
  obtain ⟨hc', hcs⟩ := not_or.mp (mt List.mem_cons.mpr hreturn)
  by_cases hq : isQuote c = true
  · have hne : c ≠ '#' := by
      rintro rfl
      exact absurd hq (by decide)
    rw [if_neg hne, lexeme_of_isQuote hq, lexeme_of_isQuote hq, splits_of_isQuote hq,
      literal_withReturns hq]
  by_cases hname : startsName c = true
  · have hne : c ≠ '#' := by
      rintro rfl
      exact absurd hname (by decide)
    rw [if_neg hne, lexeme_of_startsName hname, lexeme_of_startsName hname, word_withReturns hname]
  have hwhole : splits c cs = false := by rw [splits, if_neg hq, if_neg hname]
  rw [hwhole, if_neg (by decide)]
  by_cases hcomment : c = '#'
  · subst hcomment
    rw [if_pos rfl]
    exact congrArg (Lexeme.comment, ·) (dropWhile_comment_withReturns cs)
  rw [if_neg hcomment, lexeme, lexeme, if_neg hc, if_neg hc, if_neg (Ne.symm hc'),
    if_neg (Ne.symm hc')]
  by_cases hblank : c = ' ' ∨ c = '\t' ∨ c = '\x0c'
  · rw [if_pos hblank, if_pos hblank]
    rfl
  rw [if_neg hblank, if_neg hblank, if_neg hcomment, if_neg hcomment]
  by_cases hslash : c = '\\'
  · rw [if_pos hslash, if_pos hslash, continued_withReturns hcs]
  rw [if_neg hslash, if_neg hslash]
  by_cases hsemicolon : c = ';'
  · rw [if_pos hsemicolon, if_pos hsemicolon]
    rfl
  have hdigit : (withReturns cs).head?.any Char.isDigit = cs.head?.any Char.isDigit :=
    head?_any_withReturns (by decide) cs
  rw [if_neg hsemicolon, if_neg hsemicolon, if_neg hq, if_neg hq, hdigit]
  by_cases hnumber : c.isDigit = true ∨ c = '.' ∧ cs.head?.any Char.isDigit = true
  · rw [if_pos hnumber, if_pos hnumber, dropWhile_withReturns (by decide) (by decide)]
    rfl
  · rw [if_neg hnumber, if_neg hnumber, if_neg hname, if_neg hname, Lexeme.withReturns,
      mark_withReturns]

end ModuleReload.Source
