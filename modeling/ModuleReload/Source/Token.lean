/-!
# Brackets and tokens

The import grammar needs few distinctions: names, string literals, the marks that occur in
imports and in lists of strings, and brackets, which decide where a statement ends. All other
lexemes of the language are one token, `Token.other`.
-/

namespace ModuleReload.Source

/-! ## Brackets -/

/-- The three kinds of bracket. -/
inductive Bracket
  | round
  | square
  | curly
  deriving DecidableEq, Repr

namespace Bracket

/-- The character that opens the bracket. -/
def opening : Bracket → Char
  | round => '('
  | square => '['
  | curly => '{'

/-- The character that closes the bracket. -/
def closing : Bracket → Char
  | round => ')'
  | square => ']'
  | curly => '}'

def ofOpening? : Char → Option Bracket
  | '(' => some round
  | '[' => some square
  | '{' => some curly
  | _ => none

def ofClosing? : Char → Option Bracket
  | ')' => some round
  | ']' => some square
  | '}' => some curly
  | _ => none

end Bracket

/-! ## Tokens -/

/-- What a statement is made of. -/
inductive Token
  /-- An identifier or keyword. -/
  | name (text : String)
  /-- A string literal: what stands between its quotes, escapes left as written. -/
  | literal (contents : String)
  | dot
  | comma
  | star
  | colon
  | equals
  | opening (b : Bracket)
  | closing (b : Bracket)
  /-- Numbers and all other marks. -/
  | other
  deriving DecidableEq, Repr

namespace Token

/-- The words that begin a compound statement. What follows their colon on the same line is a
block of statements of its own. -/
def compoundWords : List String :=
  ["if", "elif", "else", "try", "except", "finally", "with", "for", "while", "def", "class",
    "async"]

/-- Whether the tokens begin with a word of a compound statement. -/
def startsCompound : List Token → Bool
  | name word :: _ => compoundWords.contains word
  | _ => false

/-- What stands after the first colon outside brackets, counted from `depth` brackets deep, that
is not the beginning of `:=`. `none` if there is no such colon or nothing stands after it. -/
def blockBodyFrom (depth : Nat) : List Token → Option (List Token)
  | [] => none
  | opening _ :: ts => blockBodyFrom (depth + 1) ts
  | closing _ :: ts => blockBodyFrom (depth - 1) ts
  | colon :: ts =>
    if depth = 0 ∧ ts.head? ≠ some equals then
      if ts.isEmpty then none else some ts
    else blockBodyFrom depth ts
  | _ :: ts => blockBodyFrom depth ts

/-- The part of a compound statement that stands after its colon on the same line. -/
def blockBody (ts : List Token) : Option (List Token) :=
  blockBodyFrom 0 ts

/-- Whether a statement opens a block that goes on on the same line. -/
def opensBlock (ts : List Token) : Bool :=
  startsCompound ts && (blockBody ts).isSome

theorem length_blockBodyFrom {depth : Nat} {ts body : List Token}
    (h : blockBodyFrom depth ts = some body) : body.length < ts.length := by
  fun_induction blockBodyFrom depth ts with
  | case1 => simp at h
  | case2 _ _ _ ih => exact Nat.lt_succ_of_lt (ih h)
  | case3 _ _ _ ih => exact Nat.lt_succ_of_lt (ih h)
  | case4 => simp at h
  | case5 => simp_all
  | case6 _ _ _ ih => exact Nat.lt_succ_of_lt (ih h)
  | case7 _ _ _ _ _ _ ih => exact Nat.lt_succ_of_lt (ih h)

/-- A body is shorter than its statement, so looking for imports in the body of a body ends. -/
theorem length_blockBody {ts body : List Token} (h : blockBody ts = some body) :
    body.length < ts.length :=
  length_blockBodyFrom h

end Token

end ModuleReload.Source
