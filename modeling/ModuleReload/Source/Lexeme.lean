import ModuleReload.Source.Fault
import ModuleReload.Text.Letter

/-!
# Lexemes

`lexemes` cuts a source text into lexemes: the tokens, and between them the blanks, comments and
line ends that decide where statements begin. What a lexeme is depends only on the text from its
first character on (`lexeme`), never on the brackets around it; which line ends count is left to
the statements built from them.

Each lexeme carries its line, which is one more than the line ends before it. Line ends occur in
four lexemes only, and `Lexeme.height` counts them there. A malformed lexeme is the last one:
`lexeme` leaves nothing of the text behind it.
-/

namespace ModuleReload.Source

open Text

/-- A piece of source text. -/
inductive Lexeme
  | token (t : Token)
  /-- A space, tab or form feed, which indents a line that it begins. -/
  | blank
  /-- A carriage return, which is nothing. -/
  | carriageReturn
  | comment
  /-- A backslash at the end of a line: the statement goes on on the next one. -/
  | continuation
  /-- A semicolon, which ends a statement outside brackets. -/
  | semicolon
  /-- A line end, which ends a statement outside brackets. -/
  | lineEnd
  /-- What is no lexeme, with the rest of the text. -/
  | malformed (fault : Fault)
  deriving DecidableEq, Repr

/-- The number of line ends in a lexeme. -/
def Lexeme.height : Lexeme → Nat
  | token (.literal contents) => contents.toList.count '\n'
  | continuation => 1
  | lineEnd => 1
  | _ => 0

/-! ## Literals -/

def isQuote (c : Char) : Bool :=
  c == '\'' || c == '"'

/-- The contents of a literal that ends at the next `quote` on its line, and what follows it. A
character after a backslash neither ends the literal nor its line. -/
def lineLiteral (quote : Char) : List Char → Option (List Char × List Char)
  | [] => none
  | '\n' :: _ => none
  | '\\' :: c :: cs => (lineLiteral quote cs).map fun r ↦ ('\\' :: c :: r.1, r.2)
  | c :: cs =>
    if c = quote then some ([], cs)
    else (lineLiteral quote cs).map fun r ↦ (c :: r.1, r.2)

/-- The contents of a literal that ends at three times `quote`, and what follows it. -/
def blockLiteral (quote : Char) : List Char → Option (List Char × List Char)
  | [] => none
  | '\\' :: c :: cs => (blockLiteral quote cs).map fun r ↦ ('\\' :: c :: r.1, r.2)
  | c :: cs =>
    if c = quote ∧ cs.take 2 = [quote, quote] then some ([], cs.drop 2)
    else (blockLiteral quote cs).map fun r ↦ (c :: r.1, r.2)

/-- The literal whose first quote has just been read, and what follows it. -/
def literal (quote : Char) (cs : List Char) : Lexeme × List Char :=
  if cs.take 2 = [quote, quote] then
    match blockLiteral quote (cs.drop 2) with
    | some (contents, rest) => (.token (.literal (String.ofList contents)), rest)
    -- A literal without an end takes up the rest of the text.
    | none => (.malformed .openBlockLiteral, [])
  else
    match lineLiteral quote cs with
    | some (contents, rest) => (.token (.literal (String.ofList contents)), rest)
    | none => (.malformed .openLiteral, [])

/-! ## Words, numbers and marks -/

def continuesNumber (c : Char) : Bool :=
  isAlphanumeric c || c == '_' || c == '.'

/-- The words that, in any case, belong to a literal which follows them at once. -/
def literalMarks : List (List Char) :=
  [['r'], ['u'], ['b'], ['f'], ['t'], ['b', 'r'], ['r', 'b'], ['f', 'r'], ['r', 'f'], ['t', 'r'],
    ['r', 't']]

/-- A word that begins with `c`: a name, or the literal that it marks. -/
def word (c : Char) (cs : List Char) : Lexeme × List Char :=
  let text := c :: cs.takeWhile continuesName
  let rest := cs.dropWhile continuesName
  match rest with
  | quote :: rest' =>
    if isQuote quote ∧ literalMarks.contains (text.map Char.toLower) then literal quote rest'
    else (.token (.name (String.ofList text)), rest)
  | [] => (.token (.name (String.ofList text)), [])

/-- What follows a backslash outside a literal: a line end, possibly after a carriage return. -/
def continued : List Char → Lexeme × List Char
  | '\n' :: cs => (.continuation, cs)
  | '\r' :: '\n' :: cs => (.continuation, cs)
  | _ => (.malformed .strayBackslash, [])

/-- The token of a mark that is always one character long. -/
def mark (c : Char) : Token :=
  match Bracket.ofOpening? c, Bracket.ofClosing? c with
  | some b, _ => .opening b
  | none, some b => .closing b
  | none, none =>
    match c with
    | '.' => .dot
    | ',' => .comma
    | '*' => .star
    | ':' => .colon
    | '=' => .equals
    | _ => .other

/-- The lexeme that begins with `c`, and what follows it. -/
def lexeme (c : Char) (cs : List Char) : Lexeme × List Char :=
  if c = '\n' then (.lineEnd, cs)
  else if c = '\r' then (.carriageReturn, cs)
  else if c = ' ' ∨ c = '\t' ∨ c = '\x0c' then (.blank, cs)
  else if c = '#' then (.comment, cs.dropWhile (· ≠ '\n'))
  else if c = '\\' then continued cs
  else if c = ';' then (.semicolon, cs)
  else if isQuote c then literal c cs
  else if c.isDigit ∨ (c = '.' ∧ cs.head?.any Char.isDigit) then
    (.token .other, cs.dropWhile continuesNumber)
  else if startsName c then word c cs
  else (.token (mark c), cs)

/-! ## What follows a lexeme is shorter -/

theorem length_dropWhile_le (p : Char → Bool) (cs : List Char) :
    (cs.dropWhile p).length ≤ cs.length :=
  (List.dropWhile_sublist p).length_le

theorem length_lineLiteral {quote : Char} {cs contents rest : List Char}
    (h : lineLiteral quote cs = some (contents, rest)) : rest.length < cs.length := by
  fun_induction lineLiteral quote cs generalizing contents rest with
  | case1 => simp at h
  | case2 => simp at h
  | case3 c cs ih =>
    obtain ⟨⟨a, b⟩, hab, heq⟩ := Option.map_eq_some_iff.mp h
    have := ih hab
    simp only [Prod.mk.injEq] at heq
    simp only [List.length_cons, ← heq.2]
    omega
  | case4 => simp_all
  | case5 c cs _ _ _ ih =>
    obtain ⟨⟨a, b⟩, hab, heq⟩ := Option.map_eq_some_iff.mp h
    have := ih hab
    simp only [Prod.mk.injEq] at heq
    simp only [List.length_cons, ← heq.2]
    omega

theorem length_blockLiteral {quote : Char} {cs contents rest : List Char}
    (h : blockLiteral quote cs = some (contents, rest)) : rest.length < cs.length := by
  fun_induction blockLiteral quote cs generalizing contents rest with
  | case1 => simp at h
  | case2 c cs ih =>
    obtain ⟨⟨a, b⟩, hab, heq⟩ := Option.map_eq_some_iff.mp h
    have := ih hab
    simp only [Prod.mk.injEq] at heq
    simp only [List.length_cons, ← heq.2]
    omega
  | case3 c cs _ _ =>
    simp only [Option.some.injEq, Prod.mk.injEq] at h
    simp only [← h.2, List.length_drop, List.length_cons]
    omega
  | case4 c cs _ _ ih =>
    obtain ⟨⟨a, b⟩, hab, heq⟩ := Option.map_eq_some_iff.mp h
    have := ih hab
    simp only [Prod.mk.injEq] at heq
    simp only [List.length_cons, ← heq.2]
    omega

theorem length_literal (quote : Char) (cs : List Char) :
    (literal quote cs).2.length ≤ cs.length := by
  rw [literal]
  split
  · split
    · next h =>
      have := length_blockLiteral h
      simp only [List.length_drop] at this ⊢
      omega
    · simp
  · split
    · next h => exact Nat.le_of_lt (length_lineLiteral h)
    · simp

theorem length_word (c : Char) (cs : List Char) : (word c cs).2.length ≤ cs.length := by
  have hdrop := length_dropWhile_le continuesName cs
  rw [word]
  split
  · next quote rest' hrest =>
    rw [hrest, List.length_cons] at hdrop
    split
    · exact Nat.le_trans (length_literal quote rest') (by omega)
    · exact hrest ▸ hdrop
  · simp

theorem length_continued (cs : List Char) : (continued cs).2.length ≤ cs.length := by
  rw [continued.eq_def]
  split <;> simp
  all_goals omega

/-- What follows the lexeme that begins with `c` is no longer than what follows `c`. -/
theorem length_lexeme (c : Char) (cs : List Char) : (lexeme c cs).2.length ≤ cs.length := by
  rw [lexeme]
  repeat' split
  all_goals first
    | exact Nat.le_refl _
    | exact length_dropWhile_le _ _
    | exact length_continued _
    | exact length_literal _ _
    | exact length_word _ _

/-! ## The lexemes of a text -/

/-- The lexemes of a text whose first line has the number `line`, each with its line. -/
def lexemes (line : Nat) : List Char → List (Nat × Lexeme)
  | [] => []
  | c :: cs =>
    (line, (lexeme c cs).1) :: lexemes (line + (lexeme c cs).1.height) (lexeme c cs).2
termination_by cs => cs.length
decreasing_by exact Nat.lt_succ_of_le (length_lexeme c cs)

theorem lexemes_add (k line : Nat) (cs : List Char) :
    lexemes (line + k) cs = (lexemes line cs).map fun l ↦ (l.1 + k, l.2) := by
  fun_induction lexemes line cs with
  | case1 => simp [lexemes]
  | case2 line c cs ih =>
    rw [lexemes, List.map_cons, ← ih, Nat.add_right_comm]

end ModuleReload.Source
