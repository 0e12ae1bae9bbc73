/-!
# Values of a TOML document

A document is a table: fields in the order in which they came in. How a table came to be decides
what may still be added to it, so each bears its kind: a table with a header of its own, one that
only headers of its subtables imply, one made by a dotted key, and one written out in braces, which
is complete.

A header opens a table (`openTable`) or adds one to a list of tables (`openListed`). A key and value
go into the open table, through dotted keys where the key has more than one part (`put`). All of
them refuse what would define something twice.

A table that was only implied moves behind its neighbours when its header comes.
-/

namespace ModuleReload.Toml

/-- How a table came to be. -/
inductive TableKind
  | headed
  | implied
  | dotted
  | inline
  deriving DecidableEq, Repr

/-- A value of a document. Of a floating point number only its kind is kept, of a moment too. -/
inductive Value
  | text (s : String)
  | integer (n : Int)
  | float
  | boolean (b : Bool)
  | moment
  | array (vs : List Value)
  | table (kind : TableKind) (fields : List (String × Value))
  /-- Tables that share one header. -/
  | listed (tables : List (List (String × Value)))
  deriving Repr

/-- The fields of a table in the order in which they came in. -/
abbrev Fields := List (String × Value)

namespace Fields

/-- The fields with the value of one that is there replaced. -/
def replace (fields : Fields) (key : String) (v : Value) : Fields :=
  fields.map fun f ↦ if f.1 = key then (key, v) else f

def erase (fields : Fields) (key : String) : Fields :=
  fields.filter (·.1 ≠ key)

/-- Changes the last of the tables that share a header. -/
def changeLast (change : Fields → Option Fields) (tables : List Fields) : Option Value :=
  match tables.getLast? with
  | some last => (change last).map fun t ↦ .listed (tables.dropLast ++ [t])
  | none => none

/-- Changes the table at a path, with implied tables where there is none. -/
def changeAt (change : Fields → Option Fields) : List String → Fields → Option Fields
  | [], fields => change fields
  | key :: keys, fields =>
    match fields.lookup key with
    | none => (changeAt change keys []).map fun sub ↦ fields ++ [(key, .table .implied sub)]
    | some (.table .inline _) => none
    | some (.table kind sub) =>
      (changeAt change keys sub).map fun sub ↦ replace fields key (.table kind sub)
    | some (.listed tables) =>
      (changeLast (changeAt change keys) tables).map (replace fields key)
    | some _ => none

/-- Opens the table of a header: a new one, or one that was only implied. -/
def openTable (path : List String) (key : String) : Fields → Option Fields :=
  changeAt (fun fields ↦
    match fields.lookup key with
    | none => some (fields ++ [(key, .table .headed [])])
    | some (.table .implied sub) => some (erase fields key ++ [(key, .table .headed sub)])
    | some _ => none) path

/-- Opens one more of the tables that share a header. -/
def openListed (path : List String) (key : String) : Fields → Option Fields :=
  changeAt (fun fields ↦
    match fields.lookup key with
    | none => some (fields ++ [(key, .listed [[]])])
    | some (.listed tables) => some (replace fields key (.listed (tables ++ [[]])))
    | some _ => none) path

/-- Adds a key and its value, in the table that the parts of the key in front of it lead to. -/
def put (v : Value) (key : String) : List String → Fields → Option Fields
  | [], fields => if (fields.lookup key).isSome then none else some (fields ++ [(key, v)])
  | part :: parts, fields =>
    match fields.lookup part with
    | none => (put v key parts []).map fun sub ↦ fields ++ [(part, .table .dotted sub)]
    | some (.table kind sub) =>
      -- A key may go on in a table that keys made, but not in one that a header has opened.
      if kind = .dotted ∨ (kind = .implied ∧ parts ≠ []) then
        (put v key parts sub).map fun sub ↦ replace fields part (.table kind sub)
      else none
    | some (.listed tables) =>
      if parts = [] then none
      else (changeLast (put v key parts) tables).map (replace fields part)
    | some _ => none

end Fields

end ModuleReload.Toml
