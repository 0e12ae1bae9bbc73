import ModuleReload.Source.Fault
import ModuleReload.Text.Pieces

/-!
# Import statements

The grammar of the two import statements over tokens, with `N` for a name:

* the word `import`, then one or more `D [as N]` between commas;
* the word `from`, then dots, then a `D` unless there is a dot, then the word `import`, then a star
  or one or more `N [as N]` between commas, which may stand in round brackets and then may end in a
  comma;

where `D` is one or more `N` between dots. Aliases are read and dropped, since they name nothing
that exists. What is left is an `Import`, and `Import.names` lists what it depends on: a member may
be a module of its own, so it is named as well as the module it comes from.
-/

namespace ModuleReload.Source

open Text

/-- What an import statement asks for. -/
inductive Import
  /-- Whole modules, each a list of names between dots. -/
  | modules (origins : List (List String))
  /-- Members of one module: the leading dots of its name, the names between the dots after them,
  and the members, of which a star asks for none. -/
  | members (level : Nat) (origin : List String) (names : List String)
  deriving DecidableEq, Repr

namespace Import

/-- The names an import depends on, in the order of the source. -/
def names : Import → List String
  | modules origins => origins.map (paste '.')
  | members level origin names =>
    let base := String.ofList (List.replicate level '.') ++ paste '.' origin
    let stem := if origin.isEmpty then base else base ++ "."
    base :: names.map (stem ++ ·)

/-! ## Parts of the grammar -/

/-- Further names of a dotted name, each after a dot, and what follows them. -/
def furtherNames : List Token → Except Fault (List String × List Token)
  | .dot :: .name n :: ts => do
    let (names, rest) ← furtherNames ts
    return (n :: names, rest)
  | .dot :: _ => .error .trailingDot
  | ts => .ok ([], ts)

/-- A dotted name, and what follows it. -/
def dottedName : List Token → Except Fault (List String × List Token)
  | .name n :: ts => do
    let (names, rest) ← furtherNames ts
    return (n :: names, rest)
  | _ => .error .missingModule

/-- What follows an alias, which may be absent. -/
def afterAlias : List Token → Except Fault (List Token)
  | .name "as" :: .name _ :: ts => .ok ts
  | .name "as" :: _ => .error .missingAlias
  | ts => .ok ts

/-- One module of an import, alias included. -/
def moduleClause (ts : List Token) : Except Fault (List String) := do
  let (origin, rest) ← dottedName ts
  let rest ← afterAlias rest
  if rest.isEmpty then return origin else .error .badModuleList

/-- One member of an import, alias included. -/
def memberClause : List Token → Except Fault String
  | .name n :: ts => do
    let rest ← afterAlias ts
    if rest.isEmpty then return n else .error .badMemberList
  | _ => .error .missingMember

/-- The pieces without a last one that is empty, unless it is the only one. -/
def withoutTrailingComma (clauses : List (List Token)) : List (List Token) :=
  if clauses.length ≠ 1 ∧ clauses.getLast? = some [] then clauses.dropLast else clauses

/-- The members of an import after its opening bracket. -/
def bracketedMembers (ts : List Token) : Except Fault (List String) := do
  let clauses := pieces Token.comma (ts.takeWhile (· ≠ .closing .round))
  match ts.dropWhile (· ≠ .closing .round) with
  | [] =>
    -- A fault in one of the clauses counts before the bracket that does not close.
    let _ ← clauses.mapM memberClause
    .error .badMemberList
  | _ :: rest =>
    let names ← (withoutTrailingComma clauses).mapM memberClause
    if rest.isEmpty then return names else .error .trailingTokens

/-- The members of an import: none for a star. -/
def memberList : List Token → Except Fault (List String)
  | [.star] => .ok []
  | .star :: _ => .error .trailingTokens
  | .opening .round :: ts => bracketedMembers ts
  | ts => (pieces Token.comma ts).mapM memberClause

/-- The module to import from, after its dots: no name if the import word follows at once. -/
def origin : List Token → Except Fault (List String × List Token)
  | .name "import" :: ts => .ok ([], .name "import" :: ts)
  | .name n :: ts => dottedName (.name n :: ts)
  | ts => .ok ([], ts)

/-! ## The two statements -/

/-- The import whose first word has been read: `import`. -/
def ofModuleList (ts : List Token) : Except Fault Import := do
  return modules (← (pieces Token.comma ts).mapM moduleClause)

/-- The import whose first word has been read: `from`. -/
def ofOrigin (ts : List Token) : Except Fault Import := do
  let level := (ts.takeWhile (· = .dot)).length
  let (base, rest) ← origin (ts.dropWhile (· = .dot))
  if level = 0 ∧ base = [] then .error .missingOrigin
  else match rest with
    | .name "import" :: rest => return members level base (← memberList rest)
    | _ => .error .missingImport

/-- The import that a statement is, if its first word is one of the two. -/
def ofTokens? : List Token → Option (Except Fault Import)
  | .name "import" :: ts => some (ofModuleList ts)
  | .name "from" :: ts => some (ofOrigin ts)
  | _ => none

end Import

end ModuleReload.Source
