import ModuleReload.Graph.Drawing

/-!
# Reading drawings

A reader for the part of the DOT language that drawings are written in: digraphs with nodes, edges
between two nodes and groups, where nodes and edges may have settings in brackets. Identifiers are
words or stand in quotes. In quotes a backslash takes the meaning from the quotation mark after it
and leaves out the end of a line; in front of any other character it stands for itself, two of them
for two.

Reading goes in three steps: characters to tokens (`lex`), tokens to statements (`State.step`), and
a statement to the mark that it makes (`Statement.mark?`). The first two read one character and one
token at a time, so what is written piece by piece is read piece by piece (`lex_append`).
-/

namespace ModuleReload.Dot

open ImportGraph

/-! ## Tokens -/

/-- A token of the language. -/
inductive Token
  | word (text : String)
  | quoted (text : String)
  | arrow
  | symbol (c : Char)
  deriving DecidableEq, Repr

/-- What the characters so far leave open. -/
inductive Mode
  | between
  | word (read : List Char)
  | dash
  | quote (read : List Char)
  | escape (read : List Char)
  deriving DecidableEq, Repr

/-- Whether a word may begin with a character. -/
def isLetter (c : Char) : Bool :=
  c.isAlpha || c = '_' || 128 ≤ c.toNat

def isSymbol (c : Char) : Bool :=
  ['\x7b', '\x7d', '[', ']', '=', ';'].contains c

def isBlank (c : Char) : Bool :=
  [' ', '\t', '\n', '\r'].contains c

/-- A character outside of a token. -/
def enter (c : Char) : Option (List Token × Mode) :=
  if c = '"' then some ([], .quote [])
  else if c = '-' then some ([], .dash)
  else if isLetter c then some ([], .word [c])
  else if isSymbol c then some ([.symbol c], .between)
  else if isBlank c then some ([], .between)
  else none

/-- What a backslash and the character after it stand for in quotes. -/
def unescape (c : Char) : List Char :=
  if c = '"' then ['"'] else if c = '\n' then [] else ['\\', c]

/-- The tokens that a character completes, and what it leaves open. -/
def Mode.step : Mode → Char → Option (List Token × Mode)
  | between, c => enter c
  | word read, c =>
    if isLetter c || c.isDigit then some ([], .word (read ++ [c]))
    else (enter c).map fun r ↦ (.word (String.ofList read) :: r.1, r.2)
  | dash, c => if c = '>' then some ([.arrow], .between) else none
  | quote read, c =>
    if c = '"' then some ([.quoted (String.ofList read)], .between)
    else if c = '\\' then some ([], .escape read)
    else some ([], .quote (read ++ [c]))
  | escape read, c => some ([], .quote (read ++ unescape c))

/-- The tokens of a text, and what is open at its end. -/
def lex : Mode → List Char → Option (List Token × Mode)
  | m, [] => some ([], m)
  | m, c :: cs => do
    let first ← m.step c
    let rest ← lex first.2 cs
    return (first.1 ++ rest.1, rest.2)

/-! ## Statements -/

/-- A statement, with its settings. -/
inductive Statement
  | node (name : String) (settings : List (String × String))
  | edge (tail head : String) (settings : List (String × String))
  | group (settings : List (String × String)) (names : List String)
  deriving DecidableEq, Repr

/-- A digraph. -/
structure Document where
  title : String
  statements : List Statement
  deriving DecidableEq, Repr

def Statement.set (key value : String) : Statement → Statement
  | node name settings => node name (settings ++ [(key, value)])
  | edge tail head settings => edge tail head (settings ++ [(key, value)])
  | group settings names => group (settings ++ [(key, value)]) names

def Document.add (d : Document) (s : Statement) : Document :=
  { d with statements := d.statements ++ [s] }

/-- What the tokens so far are the beginning of. -/
inductive State
  | start
  | untitled
  | titled (title : String)
  /-- A statement may begin. -/
  | body (d : Document)
  /-- A statement has ended, and a semicolon may follow. -/
  | ended (d : Document)
  /-- A name at the beginning of a statement. -/
  | named (d : Document) (name : String)
  | arrow (d : Document) (tail : String)
  | joined (d : Document) (tail head : String)
  /-- In the brackets of a statement. -/
  | bracket (d : Document) (s : Statement)
  | key (d : Document) (s : Statement) (key : String)
  | value (d : Document) (s : Statement) (key : String)
  /-- In the braces of a group. -/
  | group (d : Document) (settings : List (String × String)) (names : List String)
  /-- A name in a group. -/
  | item (d : Document) (settings : List (String × String)) (names : List String) (name : String)
  | groupValue (d : Document) (settings : List (String × String)) (names : List String)
      (key : String)
  | groupEnded (d : Document) (settings : List (String × String)) (names : List String)
  | complete (d : Document)
  deriving DecidableEq, Repr

/-- The words that are no identifiers. -/
def keywords : List (List Char) :=
  ["node", "edge", "graph", "digraph", "subgraph", "strict"].map String.toList

def Token.identifier? : Token → Option String
  | word text => if keywords.contains (text.toList.map Char.toLower) then none else some text
  | quoted text => some text
  | _ => none

/-- A token where a statement may begin. -/
def Document.next (d : Document) (t : Token) : Option State :=
  if t = .symbol '\x7d' then some (.complete d)
  else if t = .symbol '\x7b' then some (.group d [] [])
  else t.identifier?.map (.named d)

/-- A token after a statement. -/
def Document.after (d : Document) (t : Token) : Option State :=
  if t = .symbol ';' then some (.body d) else d.next t

/-- A token where a name or a setting of a group may begin. -/
def Document.nextIn (d : Document) (settings : List (String × String)) (names : List String)
    (t : Token) : Option State :=
  if t = .symbol '\x7d' then some (.ended (d.add (.group settings names)))
  else t.identifier?.map (.item d settings names)

/-- A token after a name or a setting of a group. -/
def Document.afterIn (d : Document) (settings : List (String × String)) (names : List String)
    (t : Token) : Option State :=
  if t = .symbol ';' then some (.group d settings names) else d.nextIn settings names t

/-- One more token. -/
def State.step : State → Token → Option State
  | start, t => if t = .word "digraph" then some .untitled else none
  | untitled, t => t.identifier?.map .titled
  | titled title, t => if t = .symbol '\x7b' then some (.body ⟨title, []⟩) else none
  | body d, t => d.next t
  | ended d, t => d.after t
  | named d name, t =>
    if t = .arrow then some (.arrow d name)
    else if t = .symbol '[' then some (.bracket d (.node name []))
    else (d.add (.node name [])).after t
  | arrow d tail, t => t.identifier?.map (.joined d tail)
  | joined d tail head, t =>
    if t = .symbol '[' then some (.bracket d (.edge tail head []))
    else (d.add (.edge tail head [])).after t
  | bracket d s, t =>
    if t = .symbol ']' then some (.ended (d.add s)) else t.identifier?.map (.key d s)
  | key d s k, t => if t = .symbol '=' then some (.value d s k) else none
  | value d s k, t => t.identifier?.map fun v ↦ .bracket d (s.set k v)
  | group d settings names, t => d.nextIn settings names t
  | item d settings names name, t =>
    if t = .symbol '=' then some (.groupValue d settings names name)
    else d.afterIn settings (names ++ [name]) t
  | groupValue d settings names k, t =>
    t.identifier?.map fun v ↦ .groupEnded d (settings ++ [(k, v)]) names
  | groupEnded d settings names, t => d.afterIn settings names t
  | complete _, _ => none

/-! ## Marks -/

/-- The mark that a statement makes, if it makes one of those that drawings have. -/
def Statement.mark? : Statement → Option Mark
  | node name [("style", "filled")] => some (.filled name)
  | edge tail head [] => some (.edge tail head false)
  | edge tail head [("constraint", "false")] => some (.edge tail head true)
  | edge tail head [("style", "dotted")] => some (.member tail head)
  | group [("rank", "same")] names => some (.rank names)
  | _ => none

/-- What a drawing shows. -/
structure Picture where
  title : String
  marks : List Mark
  deriving DecidableEq, Repr

def tokens? (text : String) : Option (List Token) :=
  (lex .between text.toList).bind fun r ↦
    match r.2 with
    | .between => some r.1
    | .word read => some (r.1 ++ [.word (String.ofList read)])
    | _ => none

def parse? (ts : List Token) : Option Document :=
  (ts.foldlM State.step .start).bind fun
    | .complete d => some d
    | _ => none

/-- What a text shows, if it is in the language and makes no other marks than drawings have. -/
def read (text : String) : Option Picture := do
  let ts ← tokens? text
  let d ← parse? ts
  let marks ← d.statements.mapM Statement.mark?
  return ⟨d.title, marks⟩

end ModuleReload.Dot
