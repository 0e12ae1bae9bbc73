import ModuleReload.Text.Letter

/-!
# Texts and keys of a TOML document

Texts stand in double quotes, where a backslash begins an escape, or in single quotes, where
nothing does; in one quote they end on their line, in three they may go on. A key is a bare word or
a text on one line.

Each reader takes the characters after what introduces it, and gives back what it read with the
characters that follow; `none` if the characters are not of its form.
-/

namespace ModuleReload.Toml

/-- Reads something from the beginning of a text, and gives the rest back. -/
abbrev Reader (α : Type) := List Char → Option (α × List Char)

/-! ## Characters -/

/-- A space or a tab. -/
def isSpace (c : Char) : Bool :=
  c == ' ' || c == '\t'

/-- A character that may stand within a line: a tab, or one that is no control character. -/
def isPrinted (c : Char) : Bool :=
  c == '\t' || (0x20 ≤ c.toNat && c.toNat ≠ 0x7F)

/-- The rest after a line end, if one stands first. -/
def lineEnd? : List Char → Option (List Char)
  | '\n' :: cs => some cs
  | '\r' :: '\n' :: cs => some cs
  | _ => none

/-- The value of a hexadecimal digit. -/
def hexValue? (c : Char) : Option Nat :=
  if c.isDigit then some (c.toNat - '0'.toNat)
  else if 'a' ≤ c.toLower ∧ c.toLower ≤ 'f' then some (c.toLower.toNat - 'a'.toNat + 10)
  else none

/-- The character that hexadecimal digits stand for. -/
def charOfHex? (digits : List Char) : Option Char :=
  match digits.mapM hexValue? with
  | some values =>
    let n := values.foldl (fun n d ↦ n * 16 + d) 0
    if n.isValidChar then some (Char.ofNat n) else none
  | none => none

/-- The character of an escape with one letter. -/
def escape? : Char → Option Char
  | 'b' => some '\x08'
  | 't' => some '\t'
  | 'n' => some '\n'
  | 'f' => some '\x0c'
  | 'r' => some '\r'
  | '"' => some '"'
  | '\\' => some '\\'
  | _ => none

/-! ## Texts -/

/-- Puts a character in front of what a reader reads. -/
def adding (c : Char) (r : Option (List Char × List Char)) : Option (List Char × List Char) :=
  r.map fun (cs, rest) ↦ (c :: cs, rest)

/-- A text in double quotes, after the first. -/
def basicText : List Char → Option (List Char × List Char)
  | [] => none
  | '"' :: cs => some ([], cs)
  | '\\' :: 'u' :: a :: b :: c :: d :: cs =>
    (charOfHex? [a, b, c, d]).bind fun x ↦ adding x (basicText cs)
  | '\\' :: 'U' :: a :: b :: c :: d :: e :: f :: g :: h :: cs =>
    (charOfHex? [a, b, c, d, e, f, g, h]).bind fun x ↦ adding x (basicText cs)
  | '\\' :: c :: cs => (escape? c).bind fun x ↦ adding x (basicText cs)
  | c :: cs => if isPrinted c then adding c (basicText cs) else none

/-- A text in single quotes, after the first. -/
def literalText : List Char → Option (List Char × List Char)
  | [] => none
  | '\'' :: cs => some ([], cs)
  | c :: cs => if isPrinted c then adding c (literalText cs) else none

/-- What stands at the end of a text in three quotes: at most two quotes of the text itself, and
what follows the closing ones. `cs` begins with three quotes. -/
def closing (quote : Char) (cs : List Char) : List Char × List Char :=
  let own := min ((cs.takeWhile (· = quote)).length - 3) 2
  (List.replicate own quote, cs.drop (own + 3))

/-- A text in three double quotes, after them. With `skipping`, blanks and line ends are passed
over, as they are after a backslash at the end of a line. -/
def basicBlock (skipping : Bool) : List Char → Option (List Char × List Char)
  | [] => none
  | '\n' :: cs => if skipping then basicBlock true cs else adding '\n' (basicBlock false cs)
  | '\r' :: '\n' :: cs => if skipping then basicBlock true cs else adding '\n' (basicBlock false cs)
  | '"' :: cs =>
    if cs.take 2 = ['"', '"'] then some (closing '"' ('"' :: cs))
    else adding '"' (basicBlock false cs)
  | '\\' :: 'u' :: a :: b :: c :: d :: cs =>
    (charOfHex? [a, b, c, d]).bind fun x ↦ adding x (basicBlock false cs)
  | '\\' :: 'U' :: a :: b :: c :: d :: e :: f :: g :: h :: cs =>
    (charOfHex? [a, b, c, d, e, f, g, h]).bind fun x ↦ adding x (basicBlock false cs)
  | '\\' :: c :: cs =>
    match escape? c with
    | some x => adding x (basicBlock false cs)
    | none =>
      -- A backslash at the end of a line joins it with the next one.
      if (lineEnd? ((c :: cs).dropWhile isSpace)).isSome then basicBlock true (c :: cs) else none
  | c :: cs =>
    if skipping && isSpace c then basicBlock true cs
    else if isPrinted c then adding c (basicBlock false cs)
    else none

/-- A text in three single quotes, after them. -/
def literalBlock : List Char → Option (List Char × List Char)
  | [] => none
  | '\n' :: cs => adding '\n' (literalBlock cs)
  | '\r' :: '\n' :: cs => adding '\n' (literalBlock cs)
  | '\'' :: cs =>
    if cs.take 2 = ['\'', '\''] then some (closing '\'' ('\'' :: cs))
    else adding '\'' (literalBlock cs)
  | c :: cs => if isPrinted c then adding c (literalBlock cs) else none

/-- The rest without a line end that stands first. -/
def afterLineEnd (cs : List Char) : List Char :=
  (lineEnd? cs).getD cs

def text : Reader String := fun cs ↦
  let read := match cs with
    | '"' :: '"' :: '"' :: cs => basicBlock false (afterLineEnd cs)
    | '\'' :: '\'' :: '\'' :: cs => literalBlock (afterLineEnd cs)
    | '"' :: cs => basicText cs
    | '\'' :: cs => literalText cs
    | _ => none
  read.map fun (contents, rest) ↦ (String.ofList contents, rest)

/-! ## Keys -/

/-- A character of a bare word. -/
def isBare (c : Char) : Bool :=
  c.isAlphanum || c == '_' || c == '-'

/-- One part of a key. -/
def keyPart : Reader String
  | '"' :: cs => (basicText cs).map fun (k, rest) ↦ (String.ofList k, rest)
  | '\'' :: cs => (literalText cs).map fun (k, rest) ↦ (String.ofList k, rest)
  | cs =>
    let word := cs.takeWhile isBare
    if word.isEmpty then none else some (String.ofList word, cs.dropWhile isBare)

/-- The number of parts from which on a key is refused, and of brackets and braces around a
value. -/
def depthLimit : Nat := 80

/-- A key of at most `n` parts between dots, with the blanks around them. -/
def keyParts : Nat → Reader (List String)
  | 0, _ => none
  | n + 1, cs =>
    match keyPart (cs.dropWhile isSpace) with
    | none => none
    | some (part, rest) =>
      match rest.dropWhile isSpace with
      | '.' :: rest => (keyParts n rest).map fun (parts, rest) ↦ (part :: parts, rest)
      | rest => some ([part], rest)

/-- A key with the blanks around it: the parts in front of the last one, and the last one. -/
def key : Reader (List String × String) := fun cs ↦
  match keyParts (depthLimit - 1) cs with
  | some (parts, rest) => parts.getLast?.map fun last ↦ ((parts.dropLast, last), rest)
  | none => none

end ModuleReload.Toml
