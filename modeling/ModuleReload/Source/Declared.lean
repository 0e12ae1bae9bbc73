import ModuleReload.Source.Statement

/-!
# Declared dependencies

A module may name modules it depends on without importing them, by a top-level assignment of a list
or tuple of string literals to `__also_reload__`. The literals are taken as they are written. An
assignment of another form declares nothing and takes nothing back, and of several declarations the
last one counts. A source that does not fall into statements declares nothing.
-/

namespace ModuleReload.Source

/-- The name whose assignment declares dependencies. -/
def declarationName : String := "__also_reload__"

/-- The literals up to the closing bracket that ends the tokens, between single commas of which
one may stand at the end. `wanted` says whether a literal may come next. -/
def literalsUntil (b : Bracket) (wanted : Bool) : List Token → Option (List String)
  | [.closing b'] => if b' = b then some [] else none
  | .literal contents :: ts =>
    if wanted then (literalsUntil b false ts).map (contents :: ·) else none
  | .comma :: ts => if wanted then none else literalsUntil b true ts
  | _ => none

/-- The names that one statement declares, if it is a declaration. -/
def declaration? : List Token → Option (List String)
  | .name target :: .equals :: .opening b :: ts =>
    if target = declarationName ∧ b ≠ .curly then literalsUntil b true ts else none
  | _ => none

/-- The names that a source declares. -/
def declared (source : String) : List String :=
  match statements source.toList with
  | .ok ss =>
    let found := (ss.filter Statement.isTopLevel).filterMap fun s ↦ declaration? s.tokens
    found.getLast?.getD []
  | .error _ => []

end ModuleReload.Source
