import ModuleReload.Settings.Basic
import ModuleReload.Toml.Document

/-!
# Settings from the fields of a document

Settings stand in two tables of a document, one for reloading and one for watching. A field that is
not there keeps its standard value, and one that is not known is passed over but listed, by its
dotted name and in the order of the document; of what an unknown table holds nothing more is said.
A known field of the wrong kind refuses the document.

A table may also be given as an array of its values in their order.
-/

namespace ModuleReload.Settings

open Toml

/-! ## Kinds -/

/-- A number that is not negative and below a bound. -/
def natural? (bound : Nat) : Value → Option Nat
  | .integer n => if 0 ≤ n ∧ n < bound then some n.toNat else none
  | _ => none

def text? : Value → Option String
  | .text s => some s
  | _ => none

def texts? : Value → Option (List String)
  | .array vs => vs.mapM text?
  | _ => none

def paths? (v : Value) : Option (List Path) :=
  (texts? v).map fun ts ↦ ts.map .ofString

/-! ## Tables -/

/-- Settings gathered so far, and the names of the fields passed over. -/
abbrev Gathered := Settings × List String

/-- Passes over an unknown field. -/
def pass (name : String) (g : Gathered) : Gathered :=
  (g.1, g.2 ++ [name])

/-- A known field of a table: its name, and how its value is taken up. -/
abbrev Known := String × (Value → Settings → Option Settings)

/-- The fields for reloading, in their order. -/
def reloadFields : List Known :=
  [("verbosity", fun v s ↦ (natural? 256 v).map fun n ↦ { s with verbosity := n }),
    ("roots", fun v s ↦ (paths? v).map fun ps ↦ { s with roots := ps }),
    ("search_path", fun v s ↦ (paths? v).map fun ps ↦ { s with searchPath := ps }),
    ("exclude", fun v s ↦ (paths? v).map fun ps ↦ { s with exclude := ps })]

/-- The fields for watching, in their order. -/
def watchFields : List Known :=
  [("debounce_ms", fun v s ↦ (natural? (Nat.pow 2 64) v).map fun n ↦ { s with debounce := n }),
    ("entries", fun v s ↦ (texts? v).map fun es ↦ { s with entries := es })]

/-- Takes up the fields of a table. -/
def ofFields (table : String) (known : List Known) (fields : Fields) (g : Gathered) :
    Option Gathered :=
  fields.foldlM (fun g (key, v) ↦
    match known.lookup key with
    | some take => (take v g.1).map (·, g.2)
    | none => some (pass (table ++ "." ++ key) g)) g

/-- Takes up the values of a table in the order of its fields. Values beyond them are nothing. -/
def ofValues (known : List Known) (vs : List Value) (g : Gathered) : Option Gathered :=
  (known.zip vs).foldlM (fun g (k, v) ↦ (k.2 v g.1).map (·, g.2)) g

/-- The name under which a moment would hold its text if it were a table. -/
def momentField : String := "$__toml_private_datetime"

/-- Takes up one of the two tables. -/
def ofTable (table : String) (known : List Known) (v : Value) (g : Gathered) : Option Gathered :=
  match v with
  | .table _ fields => ofFields table known fields g
  | .array vs => ofValues known vs g
  | .listed tables => ofValues known (tables.map (.table .headed)) g
  | .moment => some (pass (table ++ "." ++ momentField) g)
  | _ => none

/-- The settings in the fields of a document, and the names of its unknown fields. -/
def ofTables (fields : Fields) : Option Gathered :=
  fields.foldlM (fun g (key, v) ↦
    if key = "reload" then ofTable key reloadFields v g
    else if key = "watch" then ofTable key watchFields v g
    else some (pass key g)) ((standard, []) : Gathered)

/-- The settings of a document, and the names of its unknown fields. A field of the wrong kind is
told of at the beginning of the document. -/
def ofText (s : String) : Except Error (Settings × List String) :=
  match Fields.ofDocument s with
  | .error fault => .error (.malformed fault)
  | .ok fields =>
    match ofTables fields with
    | some g => .ok g
    | none => .error (.malformed (.between [] s.toList .otherKind))

end ModuleReload.Settings
