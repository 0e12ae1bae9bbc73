import ModuleReload.Source.Lexeme

/-!
# Statements

A line end or a semicolon ends a statement unless a bracket is open. `statements` reads the lexemes
from left to right with an `Assembly`: the statement being collected, the brackets that wait for
their partner, and the statements already complete. The first lexeme that cannot be read, or the
first bracket without partner, is the fault of the whole source; a bracket still open at the end
comes last.

Two marks on a statement say when it runs: `indented` if its line begins with a blank, and `nested`
if a compound statement stands before it on its line, as `y` does in `if x: pass; y`.
-/

namespace ModuleReload.Source

/-! ## Statements -/

/-- One logical statement. -/
structure Statement where
  /-- The line it begins on, counted from 1. -/
  line : Nat
  /-- Whether its line begins with a blank. -/
  indented : Bool
  /-- Whether it belongs to a block opened before it on its line. -/
  nested : Bool
  tokens : List Token
  deriving DecidableEq, Repr

/-- Whether a statement runs when its module is loaded, outside every block. -/
def Statement.isTopLevel (s : Statement) : Bool :=
  !s.indented && !s.nested

/-! ## Assembling -/

/-- What is known while the lexemes are read from left to right. -/
structure Assembly where
  /-- The statements already complete, the latest first. -/
  complete : List Statement
  /-- The statement being collected, its latest token first. -/
  draft : Statement
  /-- The open brackets with their lines, the innermost first. -/
  waiting : List (Bracket × Nat)
  /-- Whether nothing of the current line has been read. -/
  fresh : Bool
  deriving Repr

namespace Assembly

/-- A statement about to be collected. -/
def begun (line : Nat) (indented nested : Bool) : Statement :=
  ⟨line, indented, nested, []⟩

def start : Assembly :=
  ⟨[], begun 1 false false, [], true⟩

/-- The complete statements with the draft among them, unless it has no token. -/
def settled (a : Assembly) : List Statement :=
  if a.draft.tokens.isEmpty then a.complete
  else { a.draft with tokens := a.draft.tokens.reverse } :: a.complete

def push (a : Assembly) (t : Token) : Assembly :=
  { a with draft := { a.draft with tokens := t :: a.draft.tokens }, fresh := false }

/-- Reads one lexeme that stands on the given line. -/
def step (a : Assembly) (line : Nat) : Lexeme → Except SyntaxError Assembly
  | .blank =>
    .ok { a with draft := { a.draft with indented := a.draft.indented || a.fresh }, fresh := false }
  | .carriageReturn | .comment | .continuation => .ok { a with fresh := false }
  | .lineEnd =>
    if a.waiting.isEmpty then .ok ⟨a.settled, begun (line + 1) false false, [], true⟩
    else .ok { a with fresh := false }
  | .semicolon =>
    if a.waiting.isEmpty then
      let nested := a.draft.nested || Token.opensBlock a.draft.tokens.reverse
      .ok ⟨a.settled, begun line a.draft.indented nested, [], false⟩
    else .ok (a.push .other)
  | .token (.opening b) => .ok { a.push (.opening b) with waiting := (b, line) :: a.waiting }
  | .token (.closing b) =>
    match a.waiting with
    | [] => .error ⟨line, .unmatched b⟩
    | (opened, _) :: waiting =>
      if opened = b then .ok { a.push (.closing b) with waiting }
      else .error ⟨line, .mismatched b opened⟩
  | .token t => .ok (a.push t)
  | .malformed fault => .error ⟨line, fault⟩

def run (a : Assembly) (ls : List (Nat × Lexeme)) : Except SyntaxError Assembly :=
  ls.foldlM (fun a l ↦ a.step l.1 l.2) a

def finish (a : Assembly) : Except SyntaxError (List Statement) :=
  match a.waiting with
  | (opened, line) :: _ => .error ⟨line, .neverClosed opened⟩
  | [] => .ok a.settled.reverse

end Assembly

/-! ## The statements of a source -/

/-- A text without the byte order mark that may stand in front of it. -/
def withoutMark : List Char → List Char
  | '\uFEFF' :: cs => cs
  | cs => cs

def statements (source : List Char) : Except SyntaxError (List Statement) :=
  match Assembly.start.run (lexemes 1 (withoutMark source)) with
  | .ok a => a.finish
  | .error e => .error e

end ModuleReload.Source
