import ModuleReload.FileSystem.Failure
import ModuleReload.Source.Token

/-!
# What can be wrong with a source

A source is refused for one of three reasons: its file cannot be read, its text does not fall into
tokens and matching brackets, or one of its import statements is outside the import grammar. Each
reason is a constructor of `Fault`, and `Fault.message` has the wording. A `SyntaxError` is a fault
with the line it is reported for; line 0 stands for the file as a whole.
-/

namespace ModuleReload.Source

/-- What is wrong with a source. -/
inductive Fault
  /-- The file cannot be read. -/
  | unreadable (cause : FileSystem.Failure)
  /-- A backslash outside a literal that does not end its line. -/
  | strayBackslash
  /-- A literal whose line ends before it does. -/
  | openLiteral
  /-- A literal in three quotes that nothing ends. -/
  | openBlockLiteral
  /-- A closing bracket while none is open. -/
  | unmatched (closed : Bracket)
  /-- A closing bracket of another kind than the innermost open one. -/
  | mismatched (closed opened : Bracket)
  /-- A bracket still open at the end of the source. -/
  | neverClosed (opened : Bracket)
  /-- No name where a module is to be named. -/
  | missingModule
  /-- A module name that ends in a dot. -/
  | trailingDot
  /-- An alias without a name. -/
  | missingAlias
  /-- Something other than a comma between two modules. -/
  | badModuleList
  /-- Neither dots nor a module after the word that begins the statement. -/
  | missingOrigin
  /-- No import word after the module to import from. -/
  | missingImport
  /-- No name where a member is to be named. -/
  | missingMember
  /-- Something other than a comma between two members. -/
  | badMemberList
  /-- Something after the end of an import. -/
  | trailingTokens
  deriving DecidableEq, Repr

def Fault.message : Fault → String
  | .unreadable cause => "unreadable: " ++ cause.message
  | .strayBackslash => "unexpected character after line continuation character"
  | .openLiteral => "unterminated string literal"
  | .openBlockLiteral => "unterminated triple-quoted string literal"
  | .unmatched closed => s!"unmatched '{closed.closing}'"
  | .mismatched closed opened =>
    s!"closing parenthesis '{closed.closing}' does not match opening parenthesis '" ++
      s!"{opened.opening}'"
  | .neverClosed opened => s!"'{opened.opening}' was never closed"
  | .missingModule => "expected module name"
  | .trailingDot => "trailing '.' in module name"
  | .missingAlias => "expected name after 'as'"
  | .badModuleList => "invalid syntax in import statement"
  | .missingOrigin => "expected module name after 'from'"
  | .missingImport => "expected 'import'"
  | .missingMember => "expected name to import"
  | .badMemberList => "invalid syntax in import list"
  | .trailingTokens => "unexpected tokens after import"

/-- A fault and the line it is reported for, counted from 1. -/
structure SyntaxError where
  line : Nat
  fault : Fault
  deriving DecidableEq, Repr

def SyntaxError.message (e : SyntaxError) : String :=
  s!"line {e.line}: {e.fault.message}"

end ModuleReload.Source
