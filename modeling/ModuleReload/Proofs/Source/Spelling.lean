import ModuleReload.Source.Lexeme

/-!
# How lexemes are written

A lexeme that is not malformed is decided by its own characters and the one character that follows
them. `Spells text next l` says that `text` writes the lexeme `l` where `next` follows, in terms of
the characters alone. The lexer finds exactly that (`Spells.exists_lexeme`, `exists_spells`), so
what stands further behind a lexeme has no say in it.

The next character matters where a lexeme could go on: in names, numbers and comments, behind a word
that marks a literal, behind a dot that may begin a number, and behind two quotes, which may be the
beginning of three.
-/

namespace ModuleReload.Source

open Text

/-! ## Literals -/

/-- The contents of a literal that ends on its line. A character behind a backslash is not looked
at. -/
inductive LineBody (q : Char) : List Char → Prop
  | nil : LineBody q []
  | escape (c : Char) {cs : List Char} (h : LineBody q cs) : LineBody q ('\\' :: c :: cs)
  | cons {c : Char} {cs : List Char} (hq : c ≠ q) (hend : c ≠ '\n') (hslash : c ≠ '\\')
      (h : LineBody q cs) : LineBody q (c :: cs)

/-- The contents of a literal that ends at three quotes, which stand nowhere before its end. -/
inductive BlockBody (q : Char) : List Char → Prop
  | nil : BlockBody q []
  | escape (c : Char) {cs : List Char} (h : BlockBody q cs) : BlockBody q ('\\' :: c :: cs)
  | cons {c : Char} {cs : List Char} (hslash : c ≠ '\\')
      (hend : ¬(c = q ∧ (cs ++ [q, q, q]).take 2 = [q, q])) (h : BlockBody q cs) :
      BlockBody q (c :: cs)

/-- The contents of a literal between its quotes. -/
inductive Enclosed (q : Char) : (quotes body : List Char) → Prop
  | line {body : List Char} (h : LineBody q body) : Enclosed q [q] body
  | block {body : List Char} (h : BlockBody q body) : Enclosed q [q, q, q] body

theorem isQuote_iff {q : Char} : isQuote q = true ↔ q = '\'' ∨ q = '"' := by
  simp [isQuote]

theorem lineLiteral_of_body {q : Char} (hq : isQuote q = true) {body : List Char}
    (h : LineBody q body) (rest : List Char) :
    lineLiteral q (body ++ q :: rest) = some (body, rest) := by
  induction h with
  | nil => rcases isQuote_iff.mp hq with rfl | rfl <;> simp [lineLiteral]
  | escape c _ ih => simp [lineLiteral, ih]
  | @cons c cs hc hend hslash _ ih =>
    rw [List.cons_append, lineLiteral.eq_def]
    split
    · simp_all
    · simp_all
    · simp_all
    · next heq =>
      obtain ⟨rfl, rfl⟩ := List.cons.inj heq
      rw [if_neg hc, ih]
      rfl

theorem body_of_lineLiteral {q : Char} {cs body rest : List Char}
    (h : lineLiteral q cs = some (body, rest)) : cs = body ++ q :: rest ∧ LineBody q body := by
  fun_induction lineLiteral q cs generalizing body rest with
  | case1 => simp at h
  | case2 => simp at h
  | case3 c cs ih =>
    obtain ⟨⟨body', rest'⟩, hbody, heq⟩ := Option.map_eq_some_iff.mp h
    obtain ⟨rfl, rfl⟩ := Prod.mk.inj heq
    obtain ⟨rfl, hline⟩ := ih hbody
    exact ⟨rfl, .escape c hline⟩
  | case4 =>
    obtain ⟨rfl, rfl⟩ := Prod.mk.inj (Option.some.inj h)
    exact ⟨rfl, .nil⟩
  | case5 c cs hend hslash hc ih =>
    obtain ⟨⟨body', rest'⟩, hbody, heq⟩ := Option.map_eq_some_iff.mp h
    obtain ⟨rfl, rfl⟩ := Prod.mk.inj heq
    obtain ⟨rfl, hline⟩ := ih hbody
    refine ⟨rfl, .cons hc (fun heq ↦ hend heq) (fun hback ↦ ?_) hline⟩
    -- A backslash with something behind it is the case before.
    cases body' <;> exact hslash _ _ hback rfl

theorem take_two_append {q : Char} (cs rest : List Char) :
    (cs ++ q :: q :: q :: rest).take 2 = (cs ++ [q, q, q]).take 2 := by
  have hlength : 2 ≤ (cs ++ [q, q, q]).length := by simp
  rw [← List.take_append_of_le_length hlength, List.append_assoc]
  rfl

theorem blockLiteral_of_body {q : Char} (hq : isQuote q = true) {body : List Char}
    (h : BlockBody q body) (rest : List Char) :
    blockLiteral q (body ++ q :: q :: q :: rest) = some (body, rest) := by
  induction h with
  | nil => rcases isQuote_iff.mp hq with rfl | rfl <;> simp [blockLiteral]
  | escape c _ ih => simp [blockLiteral, ih]
  | @cons c cs hslash hend _ ih =>
    rw [List.cons_append, blockLiteral.eq_def]
    split
    · simp_all
    · simp_all
    · next heq =>
      obtain ⟨rfl, rfl⟩ := List.cons.inj heq
      rw [take_two_append, if_neg hend, ih]
      rfl

theorem body_of_blockLiteral {q : Char} {cs body rest : List Char}
    (h : blockLiteral q cs = some (body, rest)) :
    cs = body ++ q :: q :: q :: rest ∧ BlockBody q body := by
  fun_induction blockLiteral q cs generalizing body rest with
  | case1 => simp at h
  | case2 c cs ih =>
    obtain ⟨⟨body', rest'⟩, hbody, heq⟩ := Option.map_eq_some_iff.mp h
    obtain ⟨rfl, rfl⟩ := Prod.mk.inj heq
    obtain ⟨rfl, hblock⟩ := ih hbody
    exact ⟨rfl, .escape c hblock⟩
  | case3 c cs _ hend =>
    obtain ⟨rfl, rfl⟩ := Prod.mk.inj (Option.some.inj h)
    obtain ⟨rfl, hquotes⟩ := hend
    have := List.take_append_drop 2 cs
    rw [hquotes] at this
    exact ⟨by rw [← this]; rfl, .nil⟩
  | case4 c cs hslash hend ih =>
    obtain ⟨⟨body', rest'⟩, hbody, heq⟩ := Option.map_eq_some_iff.mp h
    obtain ⟨rfl, rfl⟩ := Prod.mk.inj heq
    obtain ⟨rfl, hblock⟩ := ih hbody
    rw [take_two_append] at hend
    refine ⟨rfl, .cons (fun hback ↦ ?_) hend hblock⟩
    cases body' <;> exact hslash _ _ hback rfl

/-- A literal is its contents between its quotes. Behind two quotes there is no third one. -/
theorem literal_of_enclosed {q : Char} (hq : isQuote q = true) {quotes body : List Char}
    (h : Enclosed q quotes body) {rest : List Char}
    (hthird : quotes ++ body = [q] → rest.head? ≠ some q) :
    ∃ cs, quotes ++ body ++ quotes ++ rest = q :: cs ∧
      literal q cs = (.token (.literal (String.ofList body)), rest) := by
  cases h with
  | line h =>
    refine ⟨body ++ q :: rest, by simp, ?_⟩
    have hline : ¬(body ++ q :: rest).take 2 = [q, q] := by
      cases h with
      | nil =>
        intro htake
        cases rest with
        | nil => simp at htake
        | cons c rest => exact hthird rfl (by simpa using htake)
      | escape =>
        rcases isQuote_iff.mp hq with rfl | rfl <;> simp
      | cons hc => simp [hc]
    rw [literal, if_neg hline, lineLiteral_of_body hq h]
  | block h =>
    refine ⟨q :: q :: (body ++ q :: q :: q :: rest), by simp, ?_⟩
    rw [literal, if_pos (by simp), List.drop_succ_cons, List.drop_succ_cons, List.drop_zero,
      blockLiteral_of_body hq h]

theorem enclosed_of_literal {q : Char} {cs rest : List Char} {l : Lexeme}
    (h : literal q cs = (l, rest)) (hl : ∀ fault, l ≠ .malformed fault) :
    ∃ quotes body, l = .token (.literal (String.ofList body)) ∧ Enclosed q quotes body ∧
      q :: cs = quotes ++ body ++ quotes ++ rest ∧
      (quotes ++ body = [q] → rest.head? ≠ some q) := by
  rw [literal] at h
  split at h
  case isTrue hblock =>
    split at h
    · next body rest' hbody =>
      obtain ⟨rfl, rfl⟩ := Prod.mk.inj h
      obtain ⟨hcs, hcontents⟩ := body_of_blockLiteral hbody
      have hall := List.take_append_drop 2 cs
      rw [hblock, hcs] at hall
      exact ⟨_, body, rfl, .block hcontents, by simp [← hall], by simp⟩
    · obtain ⟨rfl, rfl⟩ := Prod.mk.inj h
      exact absurd rfl (hl _)
  case isFalse hline =>
    split at h
    · next body rest' hbody =>
      obtain ⟨rfl, rfl⟩ := Prod.mk.inj h
      obtain ⟨rfl, hcontents⟩ := body_of_lineLiteral hbody
      refine ⟨_, body, rfl, .line hcontents, by simp, fun hempty hthird ↦ hline ?_⟩
      obtain ⟨rest'', rfl⟩ := List.head?_eq_some_iff.mp hthird
      obtain rfl : body = [] := by simpa using hempty
      rfl
    · obtain ⟨rfl, rfl⟩ := Prod.mk.inj h
      exact absurd rfl (hl _)

/-! ## Lexemes -/

/-- What stands before the first quote of a literal: nothing, or a word that marks literals. -/
inductive Mark : List Char → Prop
  | absent : Mark []
  | word {c : Char} {cs : List Char} (hstart : startsName c = true)
      (hcs : cs.all continuesName = true)
      (hmark : literalMarks.contains ((c :: cs).map Char.toLower) = true) : Mark (c :: cs)

/-- A character that is a lexeme by itself whatever follows it, the dot before a digit apart. -/
def standsAlone (c : Char) : Bool :=
  !(['\n', '\r', ' ', '\t', '\x0c', '#', '\\', ';'].contains c || isQuote c || c.isDigit ||
    startsName c)

/-- `Spells text next l` if `text` is how the lexeme `l` is written before the character `next`, or
at the end of a source. -/
inductive Spells : (text : List Char) → (next : Option Char) → Lexeme → Prop
  | lineEnd (next : Option Char) : Spells ['\n'] next .lineEnd
  | carriageReturn (next : Option Char) : Spells ['\r'] next .carriageReturn
  | blank {c : Char} (h : c = ' ' ∨ c = '\t' ∨ c = '\x0c') (next : Option Char) :
      Spells [c] next .blank
  | comment {text : List Char} (h : '\n' ∉ text) {next : Option Char}
      (hnext : ∀ c ∈ next, c = '\n') :
      Spells ('#' :: text) next .comment
  | continuation {ends : List Char} (h : ends = ['\n'] ∨ ends = ['\r', '\n']) (next : Option Char) :
      Spells ('\\' :: ends) next .continuation
  | semicolon (next : Option Char) : Spells [';'] next .semicolon
  | literal {marked : List Char} {q : Char} {quotes body : List Char} (hmark : Mark marked)
      (hq : isQuote q = true) (h : Enclosed q quotes body) {next : Option Char}
      (hthird : quotes ++ body = [q] → next ≠ some q) :
      Spells (marked ++ (quotes ++ body ++ quotes)) next (.token (.literal (String.ofList body)))
  | number {c : Char} {cs : List Char}
      (hc : c.isDigit = true ∨ c = '.' ∧ cs.head?.any Char.isDigit = true)
      (hcs : cs.all continuesNumber = true) {next : Option Char}
      (hnext : next.any continuesNumber = false) :
      Spells (c :: cs) next (.token .other)
  | name {c : Char} {cs : List Char} (hc : startsName c = true) (hcs : cs.all continuesName = true)
      {next : Option Char} (hnext : next.any continuesName = false)
      (hquote : next.any isQuote = true → literalMarks.contains
        ((c :: cs).map Char.toLower) = false) :
      Spells (c :: cs) next (.token (.name (String.ofList (c :: cs))))
  | mark {c : Char} (h : standsAlone c = true) {next : Option Char}
      (hnext : c = '.' → next.any Char.isDigit = false) : Spells [c] next (.token (Source.mark c))

/-! ## The lexer finds what is written -/

theorem dropWhile_append_of_all {p : Char → Bool} {cs rest : List Char} (hcs : cs.all p = true)
    (hrest : rest.head?.any p = false) : (cs ++ rest).dropWhile p = rest := by
  rw [List.dropWhile_append_of_pos (by simpa using hcs)]
  cases rest with
  | nil => rfl
  | cons c rest => exact List.dropWhile_cons_of_neg (by simpa using hrest)

theorem takeWhile_append_of_all {p : Char → Bool} {cs rest : List Char} (hcs : cs.all p = true)
    (hrest : rest.head?.any p = false) : (cs ++ rest).takeWhile p = cs := by
  rw [List.takeWhile_append_of_pos (by simpa using hcs)]
  cases rest with
  | nil => simp
  | cons c rest => rw [List.takeWhile_cons_of_neg (by simpa using hrest), List.append_nil]

theorem isDigit_of_startsName {c : Char} (h : startsName c = true) : c.isDigit = false := by
  rw [Bool.eq_false_iff]
  intro hdigit
  rw [startsName, Bool.or_eq_true, beq_iff_eq] at h
  rcases h with rfl | h
  · exact absurd hdigit (by decide)
  · have hnine : c.toNat ≤ '9'.toNat := by
      simp only [Char.isDigit, Bool.and_eq_true, decide_eq_true_eq, UInt32.le_iff_toNat_le]
        at hdigit
      exact hdigit.2
    have hascii : c.toNat < 0x80 := Nat.lt_of_le_of_lt hnine (by decide)
    rw [isAlphabetic, if_pos hascii] at h
    -- In ASCII the letters stand behind the digits.
    have hletter : (decide (c.val ≥ 'A'.val ∧ c.val ≤ 'Z'.val) ||
      (decide (c.val ≥ 'a'.val) && decide (c.val ≤ 'z'.val))) = true := h
    simp only [Bool.or_eq_true, Bool.and_eq_true, decide_eq_true_eq, ge_iff_le,
      UInt32.le_iff_toNat_le] at hletter
    have hA : 'A'.val.toNat = 65 := rfl
    have ha : 'a'.val.toNat = 97 := rfl
    have hvalue : c.val.toNat ≤ 57 := hnine
    omega

theorem lexeme_of_isQuote {q : Char} (hq : isQuote q = true) (cs : List Char) :
    lexeme q cs = literal q cs := by
  rcases isQuote_iff.mp hq with rfl | rfl <;> rfl

theorem lexeme_of_number {c : Char} {cs : List Char}
    (hc : c.isDigit = true ∨ c = '.' ∧ cs.head?.any Char.isDigit = true) :
    lexeme c cs = (.token .other, cs.dropWhile continuesNumber) := by
  have hne : ∀ d : Char, d.isDigit = false → d ≠ '.' → c ≠ d := by
    rintro d hd hdot rfl
    rcases hc with hc | ⟨rfl, -⟩
    · exact absurd hc (by simp [hd])
    · exact hdot rfl
  have hquote : isQuote c = false := by
    simp [isQuote, hne '\'' (by decide) (by decide), hne '"' (by decide) (by decide)]
  rw [lexeme, if_neg (hne '\n' (by decide) (by decide)), if_neg (hne '\r' (by decide) (by decide)),
    if_neg (by simp [hne ' ' (by decide) (by decide), hne '\t' (by decide) (by decide),
      hne '\x0c' (by decide) (by decide)]), if_neg (hne '#' (by decide) (by decide)),
    if_neg (hne '\\' (by decide) (by decide)), if_neg (hne ';' (by decide) (by decide)), hquote,
    if_neg (by decide), if_pos hc]

theorem lexeme_of_startsName {c : Char} (hc : startsName c = true) (cs : List Char) :
    lexeme c cs = word c cs := by
  have hne : ∀ d : Char, startsName d = false → c ≠ d := by
    rintro d hd rfl
    exact absurd hc (by simp [hd])
  have hquote : isQuote c = false := by
    simp [isQuote, hne '\'' (by decide), hne '"' (by decide)]
  rw [lexeme, if_neg (hne '\n' (by decide)), if_neg (hne '\r' (by decide)),
    if_neg (by simp [hne ' ' (by decide), hne '\t' (by decide), hne '\x0c' (by decide)]),
    if_neg (hne '#' (by decide)), if_neg (hne '\\' (by decide)), if_neg (hne ';' (by decide)),
    hquote,
    if_neg (by decide), if_neg (by simp [isDigit_of_startsName hc, hne '.' (by decide)]), if_pos hc]

theorem lexeme_of_standsAlone {c : Char} (hc : standsAlone c = true) {cs : List Char}
    (hdot : c = '.' → cs.head?.any Char.isDigit = false) : lexeme c cs = (.token (mark c), cs) := by
  simp only [standsAlone, List.contains_cons, List.contains_nil, Bool.or_false, Bool.not_eq_true',
    Bool.or_eq_false_iff, beq_eq_false_iff_ne, ne_eq] at hc
  obtain ⟨⟨⟨⟨hend, hreturn, hspace, htab, hfeed, hcomment, hslash, hsemicolon⟩, hquote⟩, hdigit⟩,
      hname⟩ := hc
  rw [lexeme, if_neg hend, if_neg hreturn, if_neg (by simp [hspace, htab, hfeed]), if_neg hcomment,
    if_neg hslash, if_neg hsemicolon, hquote, if_neg (by decide),
    if_neg (by simpa [hdigit] using hdot), hname, if_neg (by decide)]

theorem continuesName_of_isQuote {q : Char} (hq : isQuote q = true) : continuesName q = false := by
  rcases isQuote_iff.mp hq with rfl | rfl <;> decide

theorem word_of_name {c : Char} {cs rest : List Char} (hcs : cs.all continuesName = true)
    (hnext : rest.head?.any continuesName = false)
    (hquote : rest.head?.any isQuote = true →
      literalMarks.contains ((c :: cs).map Char.toLower) = false) :
    word c (cs ++ rest) = (.token (.name (String.ofList (c :: cs))), rest) := by
  rw [word, takeWhile_append_of_all hcs hnext, dropWhile_append_of_all hcs hnext]
  cases rest with
  | nil => rfl
  | cons d rest =>
    refine if_neg fun h ↦ ?_
    rw [hquote (by simpa using h.1)] at h
    exact absurd h.2 (by decide)

/-- A word that marks literals, before a quote, is the beginning of a literal. -/
theorem word_of_mark {c q : Char} {cs rest : List Char} (hcs : cs.all continuesName = true)
    (hmark : literalMarks.contains ((c :: cs).map Char.toLower) = true) (hq : isQuote q = true) :
    word c (cs ++ q :: rest) = literal q rest := by
  have hnext : (q :: rest).head?.any continuesName = false := continuesName_of_isQuote hq
  rw [word, takeWhile_append_of_all hcs hnext, dropWhile_append_of_all hcs hnext]
  exact if_pos ⟨hq, hmark⟩

/-- The lexer finds a lexeme where it is written, whatever stands behind the next character. -/
theorem Spells.exists_lexeme {text : List Char} {next : Option Char} {l : Lexeme}
    (h : Spells text next l) :
    ∃ c cs, text = c :: cs ∧ ∀ rest : List Char, rest.head? = next →
      lexeme c (cs ++ rest) = (l, rest) := by
  cases h with
  | lineEnd | carriageReturn | semicolon => exact ⟨_, [], rfl, fun rest _ ↦ rfl⟩
  | blank h =>
    refine ⟨_, [], rfl, fun rest _ ↦ ?_⟩
    rcases h with rfl | rfl | rfl <;> rfl
  | @comment text h next hnext =>
    refine ⟨_, text, rfl, fun rest hrest ↦ ?_⟩
    have hdrop : (text ++ rest).dropWhile (· ≠ '\n') = rest := by
      refine dropWhile_append_of_all (by simpa using fun c hc ↦ ne_of_mem_of_not_mem hc h) ?_
      subst hrest
      cases rest with
      | nil => rfl
      | cons d rest => simpa using hnext d rfl
    show (Lexeme.comment, (text ++ rest).dropWhile (· ≠ '\n')) = _
    rw [hdrop]
  | continuation h =>
    refine ⟨_, _, rfl, fun rest _ ↦ ?_⟩
    rcases h with rfl | rfl <;> rfl
  | @literal marked q quotes body hmark hq h next hthird =>
    cases hmark with
    | absent =>
      obtain ⟨cs, hcs, -⟩ := @literal_of_enclosed q hq quotes body h [] (by simp)
      refine ⟨q, cs, by simpa using hcs, fun rest hrest ↦ ?_⟩
      subst hrest
      obtain ⟨cs', hcs', hliteral⟩ := literal_of_enclosed hq h hthird
      rw [List.append_nil] at hcs
      rw [hcs, List.cons_append] at hcs'
      rw [(List.cons.inj hcs').2, lexeme_of_isQuote hq, hliteral]
    | @word c cs hstart hcs hword =>
      refine ⟨c, cs ++ (quotes ++ body ++ quotes), by simp, fun rest hrest ↦ ?_⟩
      subst hrest
      obtain ⟨cs', hcs', hliteral⟩ := literal_of_enclosed hq h hthird
      rw [List.append_assoc, hcs', lexeme_of_startsName hstart, word_of_mark hcs hword hq, hliteral]
  | @number c cs hc hcs next hnext =>
    refine ⟨c, cs, rfl, fun rest hrest ↦ ?_⟩
    subst hrest
    have hc' : c.isDigit = true ∨ c = '.' ∧ (cs ++ rest).head?.any Char.isDigit = true := by
      refine hc.imp_right (And.imp_right fun hhead ↦ ?_)
      cases cs with
      | nil => simp at hhead
      | cons d cs => exact hhead
    rw [lexeme_of_number hc', dropWhile_append_of_all hcs hnext]
  | @name c cs hc hcs next hnext hquote =>
    refine ⟨c, cs, rfl, fun rest hrest ↦ ?_⟩
    subst hrest
    rw [lexeme_of_startsName hc, word_of_name hcs hnext hquote]
  | mark h hnext =>
    refine ⟨_, [], rfl, fun rest hrest ↦ ?_⟩
    subst hrest
    exact lexeme_of_standsAlone h hnext

theorem any_head?_dropWhile (p : Char → Bool) (cs : List Char) :
    (cs.dropWhile p).head?.any p = false := by
  have := List.head?_dropWhile_not p cs
  cases h : (cs.dropWhile p).head? with
  | none => rfl
  | some d => simpa [h] using this

theorem exists_spells_of_word {c : Char} {cs rest : List Char} {l : Lexeme}
    (hc : startsName c = true) (h : word c cs = (l, rest)) (hl : ∀ fault, l ≠ .malformed fault) :
    ∃ mid, cs = mid ++ rest ∧ Spells (c :: mid) rest.head? l := by
  have hsplit : cs = cs.takeWhile continuesName ++ cs.dropWhile continuesName :=
    (List.takeWhile_append_dropWhile).symm
  have hall : (cs.takeWhile continuesName).all continuesName = true := List.all_takeWhile
  have hnext := any_head?_dropWhile continuesName cs
  rw [word] at h
  generalize cs.takeWhile continuesName = name at h hsplit hall
  generalize cs.dropWhile continuesName = after at h hsplit hnext
  subst hsplit
  cases after with
  | nil =>
    obtain ⟨rfl, rfl⟩ := Prod.mk.inj h
    exact ⟨name, rfl, .name hc hall rfl (by simp)⟩
  | cons d after =>
    dsimp only at h
    split at h
    case isTrue hmark =>
      obtain ⟨quotes, body, rfl, henclosed, heq, hthird⟩ := enclosed_of_literal h hl
      refine ⟨name ++ (quotes ++ body ++ quotes), by rw [heq, ← List.append_assoc], ?_⟩
      exact .literal (.word hc hall hmark.2) hmark.1 henclosed hthird
    case isFalse hmark =>
      obtain ⟨rfl, rfl⟩ := Prod.mk.inj h
      refine ⟨name, rfl, .name hc hall hnext fun hd ↦ ?_⟩
      rw [Bool.eq_false_iff]
      exact fun hword ↦ hmark ⟨by simpa using hd, hword⟩

theorem spells_comment (cs : List Char) :
    Spells ('#' :: cs.takeWhile (· ≠ '\n')) (cs.dropWhile (· ≠ '\n')).head? .comment := by
  refine .comment ?_ ?_
  · exact fun hmem ↦ by simpa using List.all_eq_true.mp List.all_takeWhile _ hmem
  · intro d hd
    have := any_head?_dropWhile (· ≠ '\n') cs
    rw [Option.mem_def.mp hd] at this
    simpa using this

theorem exists_spells_of_continued {cs rest : List Char} {l : Lexeme}
    (h : continued cs = (l, rest)) (hl : ∀ fault, l ≠ .malformed fault) :
    ∃ mid, cs = mid ++ rest ∧ Spells ('\\' :: mid) rest.head? l := by
  rw [continued.eq_def] at h
  split at h
  · obtain ⟨rfl, rfl⟩ := Prod.mk.inj h
    exact ⟨['\n'], rfl, .continuation (.inl rfl) _⟩
  · obtain ⟨rfl, rfl⟩ := Prod.mk.inj h
    exact ⟨['\r', '\n'], rfl, .continuation (.inr rfl) _⟩
  · obtain ⟨rfl, rfl⟩ := Prod.mk.inj h
    exact absurd rfl (hl _)

theorem spells_number {c : Char} {cs : List Char}
    (h : c.isDigit = true ∨ c = '.' ∧ cs.head?.any Char.isDigit = true) :
    Spells (c :: cs.takeWhile continuesNumber) (cs.dropWhile continuesNumber).head?
      (.token .other) := by
  refine .number ?_ List.all_takeWhile (any_head?_dropWhile continuesNumber cs)
  refine h.imp_right (And.imp_right fun hhead ↦ ?_)
  cases cs with
  | nil => simp at hhead
  | cons d cs =>
    have hd : continuesNumber d = true := by
      simp [continuesNumber, isAlphanumeric, isNumeric_of_isDigit (by simpa using hhead)]
    rw [List.takeWhile_cons_of_pos hd]
    exact hhead

theorem exists_spells {c : Char} {cs rest : List Char} {l : Lexeme} (h : lexeme c cs = (l, rest))
    (hl : ∀ fault, l ≠ .malformed fault) :
    ∃ mid, cs = mid ++ rest ∧ Spells (c :: mid) rest.head? l := by
  rw [lexeme] at h
  split at h
  case isTrue hend =>
    obtain ⟨rfl, rfl⟩ := Prod.mk.inj h
    exact ⟨[], rfl, hend ▸ .lineEnd _⟩
  split at h
  case isTrue hreturn =>
    obtain ⟨rfl, rfl⟩ := Prod.mk.inj h
    exact ⟨[], rfl, hreturn ▸ .carriageReturn _⟩
  split at h
  case isTrue hblank =>
    obtain ⟨rfl, rfl⟩ := Prod.mk.inj h
    exact ⟨[], rfl, .blank hblank _⟩
  split at h
  case isTrue hcomment =>
    obtain ⟨rfl, rfl⟩ := Prod.mk.inj h
    exact ⟨cs.takeWhile (· ≠ '\n'), List.takeWhile_append_dropWhile.symm, hcomment ▸
      spells_comment cs⟩
  split at h
  case isTrue hslash => exact hslash ▸ exists_spells_of_continued h hl
  split at h
  case isTrue hsemicolon =>
    obtain ⟨rfl, rfl⟩ := Prod.mk.inj h
    exact ⟨[], rfl, hsemicolon ▸ .semicolon _⟩
  split at h
  case isTrue hquote =>
    obtain ⟨quotes, body, rfl, henclosed, heq, hthird⟩ := enclosed_of_literal h hl
    obtain ⟨mid, hmid⟩ : ∃ mid, quotes ++ body ++ quotes = c :: mid := by
      cases henclosed <;> exact ⟨_, rfl⟩
    rw [hmid] at heq
    exact ⟨mid, (List.cons.inj heq).2, hmid ▸ .literal .absent hquote henclosed hthird⟩
  split at h
  case isTrue hnumber =>
    obtain ⟨rfl, rfl⟩ := Prod.mk.inj h
    exact ⟨cs.takeWhile continuesNumber, List.takeWhile_append_dropWhile.symm,
      spells_number hnumber⟩
  split at h
  case isTrue hname => exact exists_spells_of_word hname h hl
  case isFalse hend hreturn hblank hcomment hslash hsemicolon hquote hnumber hname =>
    obtain ⟨rfl, rfl⟩ := Prod.mk.inj h
    have halone : standsAlone c = true := by
      have := not_or.mp hblank
      have := not_or.mp this.2
      have := (not_or.mp hnumber).1
      simp_all [standsAlone]
    exact ⟨[], rfl, .mark halone fun hdot ↦ by simpa [hdot] using hnumber⟩

/-! ## What a lexeme's characters say -/

theorem Mark.count_newline {marked : List Char} (h : Mark marked) : marked.count '\n' = 0 := by
  cases h with
  | absent => rfl
  | @word c cs hstart hcs =>
    refine List.count_eq_zero.mpr fun hmem ↦ ?_
    rcases List.mem_cons.mp hmem with rfl | hmem
    · exact absurd hstart (by decide)
    · exact absurd (List.all_eq_true.mp hcs _ hmem) (by decide)

theorem Enclosed.count_newline {q : Char} {quotes body : List Char} (h : Enclosed q quotes body)
    (hq : isQuote q = true) : quotes.count '\n' = 0 := by
  rcases isQuote_iff.mp hq with rfl | rfl <;> cases h <;> decide

theorem height_mark (c : Char) : (Lexeme.token (mark c)).height = 0 := by
  rw [mark.eq_def]
  split
  · rfl
  · rfl
  · split <;> rfl

theorem Spells.height {text : List Char} {next : Option Char} {l : Lexeme}
    (h : Spells text next l) : l.height = text.count '\n' := by
  cases h with
  | lineEnd | carriageReturn | semicolon => decide
  | blank h => rcases h with rfl | rfl | rfl <;> decide
  | comment h => simp [Lexeme.height, List.count_eq_zero.mpr h]
  | continuation h => rcases h with rfl | rfl <;> decide
  | literal hmark hq h =>
    simp [Lexeme.height, List.count_append, hmark.count_newline, h.count_newline hq]
  | @number c cs hc hcs =>
    refine (List.count_eq_zero.mpr fun hmem ↦ ?_).symm
    rcases List.mem_cons.mp hmem with rfl | hmem
    · exact hc.elim (fun hc ↦ absurd hc (by decide)) fun hc ↦ absurd hc.1 (by decide)
    · exact absurd (List.all_eq_true.mp hcs _ hmem) (by decide)
  | name hc hcs =>
    refine (List.count_eq_zero.mpr fun hmem ↦ ?_).symm
    rcases List.mem_cons.mp hmem with rfl | hmem
    · exact absurd hc (by decide)
    · exact absurd (List.all_eq_true.mp hcs _ hmem) (by decide)
  | @mark c h =>
    have hend : c ≠ '\n' := by
      rintro rfl
      exact absurd h (by decide)
    rw [height_mark, List.count_singleton, if_neg (by simpa using hend)]

/-- A character that ends every name, number and mark before it. -/
def separates (c : Char) : Bool :=
  !(continuesNumber c || isQuote c)

theorem continuesNumber_of_separates {c : Char} (h : separates c = true) :
    continuesNumber c = false :=
  (Bool.or_eq_false_iff.mp ((Bool.not_eq_true' _).mp h)).1

theorem isQuote_of_separates {c : Char} (h : separates c = true) : isQuote c = false :=
  (Bool.or_eq_false_iff.mp ((Bool.not_eq_true' _).mp h)).2

theorem continuesName_of_separates {c : Char} (h : separates c = true) :
    continuesName c = false := by
  have := continuesNumber_of_separates h
  simp_all [continuesNumber, continuesName]

theorem isDigit_of_separates {c : Char} (h : separates c = true) : c.isDigit = false := by
  rw [Bool.eq_false_iff]
  intro hdigit
  have := continuesNumber_of_separates h
  simp [continuesNumber, isAlphanumeric, isNumeric_of_isDigit hdigit] at this

/-- A lexeme stays what it is before a character that separates, a comment before a line end
only. -/
theorem Spells.before {text : List Char} {next next' : Option Char} {l : Lexeme}
    (h : Spells text next l) (hnext : ∀ c ∈ next', separates c = true)
    (hcomment : l = .comment → ∀ c ∈ next', c = '\n') : Spells text next' l := by
  have hnumber : next'.any continuesNumber = false := by
    cases next' with
    | none => rfl
    | some c => exact continuesNumber_of_separates (hnext c rfl)
  have hquote : next'.any isQuote = false := by
    cases next' with
    | none => rfl
    | some c => exact isQuote_of_separates (hnext c rfl)
  cases h with
  | lineEnd => exact .lineEnd _
  | carriageReturn => exact .carriageReturn _
  | blank h => exact .blank h _
  | comment h => exact .comment h (hcomment rfl)
  | continuation h => exact .continuation h _
  | semicolon => exact .semicolon _
  | @literal marked q quotes body hmark hq h _ hthird =>
    refine .literal hmark hq h fun _ hthird ↦ ?_
    rw [hthird, Option.any_some, hq] at hquote
    exact absurd hquote (by decide)
  | number hc hcs => exact .number hc hcs hnumber
  | name hc hcs =>
    refine .name hc hcs ?_ fun h ↦ absurd h (by simp [hquote])
    cases next' with
    | none => rfl
    | some c => exact continuesName_of_separates (hnext c rfl)
  | mark h =>
    refine .mark h fun _ ↦ ?_
    cases next' with
    | none => rfl
    | some c => exact isDigit_of_separates (hnext c rfl)

/-! ## Texts -/

/-- `Reads text next ls` if `text` is written with the lexemes `ls` where `next` is the character
behind it. -/
inductive Reads : (text : List Char) → (next : Option Char) → List Lexeme → Prop
  | nil (next : Option Char) : Reads [] next []
  | cons {text front : List Char} {next : Option Char} {l : Lexeme} {ls : List Lexeme}
      (h : Spells text (front.head?.or next) l) (hs : Reads front next ls) :
      Reads (text ++ front) next (l :: ls)

/-- Lexemes with their lines, the first of them on the given line. -/
def numbered (line : Nat) : List Lexeme → List (Nat × Lexeme)
  | [] => []
  | l :: ls => (line, l) :: numbered (line + l.height) ls

theorem Reads.single {text : List Char} {next : Option Char} {l : Lexeme} (h : Spells text next l) :
    Reads text next [l] :=
  List.append_nil text ▸ .cons h (.nil next)

theorem Reads.append {front back : List Char} {next : Option Char} {ls ms : List Lexeme}
    (h : Reads front (back.head?.or next) ls) (hs : Reads back next ms) :
    Reads (front ++ back) next (ls ++ ms) := by
  generalize hmid : back.head?.or next = mid at h
  induction h with
  | nil => exact hs
  | @cons text front mid l ls h _ ih =>
    subst hmid
    rw [List.append_assoc]
    refine .cons ?_ (ih rfl)
    rwa [List.head?_append, Option.or_assoc]

/-- The lexer reads a text in the same way whatever follows its next character. -/
theorem Reads.lexemes {front back : List Char} {ls : List Lexeme} (h : Reads front back.head? ls)
    (line : Nat) :
    lexemes line (front ++ back) =
      numbered line ls ++ Source.lexemes (line + front.count '\n') back := by
  generalize hnext : back.head? = next at h
  induction h generalizing line with
  | nil => rfl
  | @cons text front next l ls h _ ih =>
    obtain ⟨c, cs, rfl, hlexeme⟩ := h.exists_lexeme
    have hfirst : lexeme c (cs ++ (front ++ back)) = (l, front ++ back) :=
      hlexeme _ (by rw [List.head?_append, hnext])
    rw [List.append_assoc, List.cons_append, Source.lexemes, hfirst, ih _ hnext, numbered, h.height,
      List.count_append, ← Nat.add_assoc]
    rfl

theorem Reads.lexemes_eq {text : List Char} {ls : List Lexeme} (h : Reads text none ls)
    (line : Nat) : Source.lexemes line text = numbered line ls := by
  have := @Reads.lexemes text [] ls h line
  rwa [List.append_nil, Source.lexemes, List.append_nil] at this

/-- What stands behind a text may change to a character that separates, behind a comment to a line
end. -/
theorem Reads.before {text : List Char} {next next' : Option Char} {ls : List Lexeme}
    (h : Reads text next ls) (hnext : ∀ c ∈ next', separates c = true)
    (hcomment : ls.getLast? = some .comment → ∀ c ∈ next', c = '\n') : Reads text next' ls := by
  induction h with
  | nil => exact .nil _
  | @cons text front next l ls h hs ih =>
    cases hs with
    | nil => exact .cons (h.before hnext fun hl ↦ hcomment (hl ▸ rfl)) (.nil _)
    | cons h' hs' =>
      refine .cons ?_ (ih fun hl ↦ hcomment ?_)
      · obtain ⟨c, cs, rfl, -⟩ := h'.exists_lexeme
        exact h
      · rwa [List.getLast?_cons_cons]

theorem exists_reads {line : Nat} {text : List Char}
    (h : ∀ l ∈ lexemes line text, ∀ fault, l.2 ≠ .malformed fault) :
    ∃ ls, Reads text none ls ∧ lexemes line text = numbered line ls := by
  fun_induction lexemes line text with
  | case1 => exact ⟨[], .nil _, rfl⟩
  | case2 line c cs ih =>
    obtain ⟨ls, hls, heq⟩ := ih fun l hl ↦ h l (List.mem_cons_of_mem _ hl)
    have hfirst := h _ List.mem_cons_self
    generalize hlexeme : lexeme c cs = r at *
    obtain ⟨l, rest⟩ := r
    obtain ⟨mid, rfl, hspells⟩ := exists_spells hlexeme hfirst
    refine ⟨l :: ls, ?_, by rw [heq, numbered]⟩
    exact .cons (by rwa [Option.or_none]) hls

end ModuleReload.Source
