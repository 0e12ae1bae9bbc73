import ModuleReload.Toml.Fault
import ModuleReload.Toml.Scalar

/-!
# Reading a TOML document

A document is a sequence of lines: a header that opens a table, a key with its value, or nothing,
each with a comment at its end if one likes. A value may take several lines where it is a text in
three quotes or an array. `Fields.ofDocument` reads the whole; a document that is not well formed
has no fields at all, and is looked through once more for what is wrong with it.

The readers of arrays and braces recurse on how deeply values may still be nested, and the lists in
them on a bound for their length, which the length of the text is.
-/

namespace ModuleReload.Toml

/-! ## Between values -/

/-- The rest after blanks, line ends and comments. `inComment` says that a comment has begun. -/
def skipFiller (inComment : Bool) : List Char → List Char
  | '\n' :: cs => skipFiller false cs
  | '\r' :: '\n' :: cs => skipFiller false cs
  | c :: cs =>
    if inComment then if isPrinted c then skipFiller true cs else c :: cs
    else if isSpace c then skipFiller false cs
    else if c = '#' then skipFiller true cs
    else c :: cs
  | [] => []

/-- The rest after the end of a line, which may have a comment. The end of the text ends a line
too. -/
def endOfLine? (cs : List Char) : Option (List Char) :=
  let rest := match cs.dropWhile isSpace with
    | '#' :: cs => cs.dropWhile isPrinted
    | cs => cs
  if rest.isEmpty then some [] else lineEnd? rest

/-! ## Values -/

/-- At most `n` items up to the closing bracket, each read by `item`, with commas between them and
possibly one after the last. -/
def items (item : Reader Value) : Nat → Reader (List Value)
  | 0, _ => none
  | n + 1, cs =>
    match skipFiller false cs with
    | ']' :: cs => some ([], cs)
    | cs =>
      match item cs with
      | none => none
      | some (v, cs) =>
        match skipFiller false cs with
        | ',' :: cs => (items item n cs).map fun (vs, cs) ↦ (v :: vs, cs)
        | ']' :: cs => some ([v], cs)
        | _ => none

/-- A key, a value read by `item`, and the blanks around both: the fields with them added. -/
def keyValue (item : Reader Value) (fields : Fields) : Reader Fields := fun cs ↦
  match key cs with
  | some ((parts, last), '=' :: cs) =>
    match item (cs.dropWhile isSpace) with
    | some (v, cs) => (Fields.put v last parts fields).map (·, cs.dropWhile isSpace)
    | none => none
  | _ => none

/-- At most `n` keys with values up to the closing brace, added to fields. -/
def pairs (item : Reader Value) : Nat → Fields → Reader Fields
  | 0, _, _ => none
  | n + 1, fields, cs =>
    match keyValue item fields cs with
    | some (fields, ',' :: cs) => pairs item n fields cs
    | some (fields, '\x7d' :: cs) => some (fields, cs)
    | _ => none

/-- A value that may be nested `depth` deep. -/
def value : Nat → Reader Value
  | depth, '[' :: cs =>
    match depth with
    | 0 => none
    | depth + 1 => (items (value depth) (cs.length + 1) cs).map fun (vs, cs) ↦ (.array vs, cs)
  | depth, '\x7b' :: cs =>
    match depth with
    | 0 => none
    | depth + 1 =>
      -- No comma may stand before the closing brace, so empty braces are read apart.
      match cs.dropWhile isSpace with
      | '\x7d' :: cs => some (.table .inline [], cs)
      | cs => (pairs (value depth) (cs.length + 1) [] cs).map fun (f, cs) ↦ (.table .inline f, cs)
  | _, '"' :: cs => (text ('"' :: cs)).map fun (s, cs) ↦ (.text s, cs)
  | _, '\'' :: cs => (text ('\'' :: cs)).map fun (s, cs) ↦ (.text s, cs)
  | _, cs => scalar cs

/-! ## Lines -/

/-- A document being read: its fields, and the path of the table that is open. -/
structure Draft where
  fields : Fields
  here : List String

/-- The line that opens one more of the tables that share a header, after its brackets. -/
def listedHeader (d : Draft) : Reader Draft := fun cs ↦
  match key cs with
  | some ((path, last), ']' :: ']' :: cs) =>
    match Fields.openListed path last d.fields, endOfLine? cs with
    | some fields, some cs => some (⟨fields, path ++ [last]⟩, cs)
    | _, _ => none
  | _ => none

/-- The line that opens a table, after its bracket. -/
def tableHeader (d : Draft) : Reader Draft := fun cs ↦
  match key cs with
  | some ((path, last), ']' :: cs) =>
    match Fields.openTable path last d.fields, endOfLine? cs with
    | some fields, some cs => some (⟨fields, path ++ [last]⟩, cs)
    | _, _ => none
  | _ => none

/-- The line of a key and its value. -/
def fieldLine (d : Draft) : Reader Draft := fun cs ↦
  match key cs with
  | some ((parts, last), '=' :: cs) =>
    match value (depthLimit - 1) (cs.dropWhile isSpace) with
    | some (v, cs) =>
      match Fields.changeAt (Fields.put v last parts) d.here d.fields, endOfLine? cs with
      | some fields, some cs => some (⟨fields, d.here⟩, cs)
      | _, _ => none
    | none => none
  | _ => none

/-- One line that is not empty. -/
def line (d : Draft) : Reader Draft
  | '[' :: '[' :: cs => listedHeader d cs
  | '[' :: cs => tableHeader d cs
  | cs => fieldLine d cs

/-- At most `n` lines. If one of them is none, what is left from there on. -/
def lines : Nat → Draft → List Char → Except (List Char) Draft
  | 0, _, cs => .error cs
  | n + 1, d, cs =>
    match skipFiller false cs with
    | [] => .ok d
    | cs =>
      match line d cs with
      | none => .error cs
      | some (d, cs) => lines n d cs

/-! ## Faults -/

/-- What follows the longest key in front, which has at most `n` parts. -/
def afterKey? : Nat → List Char → Option (List Char)
  | 0, _ => none
  | n + 1, cs =>
    match keyPart (cs.dropWhile isSpace) with
    | none => none
    | some (_, rest) =>
      match rest.dropWhile isSpace with
      | '.' :: more => (afterKey? n more).or (some ('.' :: more))
      | rest => some rest

/-- What is wrong after the opening bracket of a header, and what is left there. `whole` begins
with the header. -/
def headerComplaint (closing : List Char) (whole cs : List Char) : Wanted × List Char :=
  match afterKey? depthLimit cs with
  | none => (.key, cs.dropWhile isSpace)
  | some rest =>
    if !closing.isPrefixOf rest then (.headerEnd (String.ofList closing), rest)
    else
      let rest := rest.drop closing.length
      -- A header that is well formed was refused for what it opens.
      if (endOfLine? rest).isNone then (.headerLineEnd, rest.dropWhile isSpace) else (.fresh, whole)

/-- What is wrong with the line of a key and its value, and what is left there. -/
def fieldComplaint (cs : List Char) : Wanted × List Char :=
  match afterKey? depthLimit cs with
  | none => (.key, cs.dropWhile isSpace)
  | some ('=' :: rest) =>
    let rest := rest.dropWhile isSpace
    match value (depthLimit - 1) rest with
    | none => (.value, rest)
    | some (_, rest) =>
      -- A line that is well formed was refused for its key.
      if (endOfLine? rest).isNone then (.lineEnd, rest.dropWhile isSpace) else (.fresh, cs)
  | some rest => (.equals, rest)

/-- What is wrong with a line, and what is left there. -/
def complaint : List Char → Wanted × List Char
  | ['['] => (.header, ['['])
  | '[' :: '[' :: cs => headerComplaint [']', ']'] ('[' :: '[' :: cs) cs
  | '[' :: cs => headerComplaint [']'] ('[' :: cs) cs
  | cs => fieldComplaint cs

/-- The fault of a text of which `cs` is left at the line that is refused. -/
def faultAt (whole cs : List Char) : Fault :=
  let (wanted, back) := complaint cs
  .between (whole.take (whole.length - back.length)) back wanted

/-- The fields of a document. A byte order mark in front is no part of it. -/
def Fields.ofDocument (s : String) : Except Fault Fields :=
  let cs := match s.toList with
    | '\uFEFF' :: cs => cs
    | cs => cs
  match lines (cs.length + 1) ⟨[], []⟩ cs with
  | .ok d => .ok d.fields
  | .error rest => .error (faultAt cs rest)

end ModuleReload.Toml
