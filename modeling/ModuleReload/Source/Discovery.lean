import ModuleReload.FileSystem.Search
import ModuleReload.Source.Import
import ModuleReload.Source.Statement
import ModuleReload.Text.Blank

/-!
# The imports of a source

`imports` lists the names that the import statements of a source depend on, in the order of the
source and with repetitions. Nothing is run: a name counts whether or not it exists, and a
condition around an import is not looked at. `Scope` says which statements count; one malformed
one among them refuses the whole source.

Relative names are left as they are written, with their leading dots.
-/

namespace ModuleReload.Source

/-- Which statements are searched for imports. -/
inductive Scope
  /-- The statements that run when the module is loaded. -/
  | topLevel
  /-- All statements, and the blocks that stand on the line of their compound statement. -/
  | deep
  deriving DecidableEq, Repr

/-- Whether a statement is searched at all. -/
def Scope.covers (scope : Scope) (s : Statement) : Bool :=
  scope == .deep || s.isTopLevel

/-- The names that one statement depends on: its own if it is an import, and in deep scope those of
the block that stands on its line. -/
def importedNames (scope : Scope) (ts : List Token) : Except Fault (List String) :=
  match Import.ofTokens? ts with
  | some parsed => parsed.map Import.names
  | none =>
    if scope = .deep ∧ Token.startsCompound ts then
      match _h : Token.blockBody ts with
      | some body => importedNames scope body
      | none => .ok []
    else .ok []
termination_by ts.length
decreasing_by exact Token.length_blockBody (by assumption)

/-- The names that the given statements depend on. -/
def importedBy (scope : Scope) : List Statement → Except SyntaxError (List String)
  | [] => .ok []
  | s :: ss =>
    if scope.covers s then
      match importedNames scope s.tokens with
      | .ok names => (importedBy scope ss).map (names ++ ·)
      | .error fault => .error ⟨s.line, fault⟩
    else importedBy scope ss

/-- The names that a source depends on. Blanks at its end are not part of it. -/
def imports (scope : Scope) (source : String) : Except SyntaxError (List String) :=
  match statements (Text.trimEnd source.toList) with
  | .ok ss => importedBy scope ss
  | .error e => .error e

/-- The names that the source at a path depends on. If it cannot be read, line 0 says why. -/
def importsAt (fs : FileSystem) (scope : Scope) (p : Path) : Except SyntaxError (List String) :=
  match fs.read p with
  | .ok source => imports scope source
  | .error cause => .error ⟨0, .unreadable cause⟩

end ModuleReload.Source
