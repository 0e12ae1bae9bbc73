import ModuleReload.Path.Basic

/-!
# Parts of a path

The last component of a path, what stands before it, and its name taken apart at the last dot.
All of these look past the empty pieces and dots at the end of a path: the parent of `a/b/.` is
`a`. What they return is written as the path was, so a doubled slash further in front stays.

A name whose only dot is its first character has no extension.
-/

namespace ModuleReload.Path

open Text

/-! ## The last component -/

/-- The pieces up to the last one that is a component. A dot is one only where `front` holds. -/
def keptPieces (front : Bool) : List Bytes → List Bytes
  | [] => []
  | p :: ps =>
    match keptPieces false ps with
    | [] => if p = "" ∨ (p = "." ∧ front = false) then [] else [p]
    | rest => p :: rest

/-- The pieces up to the last component. -/
def kept (p : Path) : List Bytes :=
  keptPieces (!p.rooted) p.pieces

/-- The path without its last component; the root and the empty path have none to lose. -/
def parent? (p : Path) : Option Path :=
  match p.kept with
  | [] => none
  | ps => some ⟨p.rooted, keptPieces (!p.rooted) ps.dropLast⟩

/-- The last component, if it is a name. -/
def fileName? (p : Path) : Option Bytes :=
  p.kept.getLast?.filter fun s ↦ s ≠ "." ∧ s ≠ ".."

/-- The text of the last component, if it is a name and has one. -/
def title? (p : Path) : Option String :=
  p.fileName?.bind decode?

/-! ## Stem and extension -/

/-- A name without its extension. -/
def stemOf (name : Bytes) : Bytes :=
  match paste '.' (cut '.' name).dropLast with
  | "" => name
  | stem => stem

/-- What stands after the last dot of a name, unless nothing stands before it. -/
def extensionOf? (name : Bytes) : Option Bytes :=
  match paste '.' (cut '.' name).dropLast with
  | "" => none
  | _ => (cut '.' name).getLast?

/-- The last name without its extension. -/
def stem? (p : Path) : Option Bytes :=
  p.fileName?.map stemOf

/-- The extension of the last name. -/
def extension? (p : Path) : Option Bytes :=
  p.fileName?.bind extensionOf?

/-- The pieces without the last `n` of their bytes. They are given and returned from the last to the
first. -/
def withoutLast : Nat → List Bytes → List Bytes
  | _, [] => []
  | n, p :: ps =>
    if n ≤ p.length then String.ofList (p.toList.take (p.length - n)) :: ps
    else withoutLast (n - p.length - 1) ps

/-- The path whose last name has the given extension in place of its own. What stands after the name
is dropped, and a path that does not end in a name stays as it is. -/
def setExtension (p : Path) (extension : Bytes) : Path :=
  match p.fileName? with
  | some name => ⟨p.rooted, p.kept.dropLast ++ [stemOf name ++ "." ++ extension]⟩
  | none => p

/-- The path with another extension. As many bytes as the old one has are taken off the end of the
path before the new one is set; their dot stays, so a name that has only a dot in front of its
extension is left as two dots, which are no name and take no extension. -/
def withExtension (p : Path) (extension : Bytes) : Path :=
  let old := (p.extension?.map String.length).getD 0
  setExtension ⟨p.rooted, (withoutLast old p.pieces.reverse).reverse⟩ extension

/-! ## Joining -/

/-- The pieces without an empty last one, which a slash at the end leaves. -/
def withoutSlash (pieces : List Bytes) : List Bytes :=
  if pieces.getLast? = some "" then pieces.dropLast else pieces

/-- The path `q` as seen from the directory `p`. A rooted path looks the same from everywhere, and
the empty path puts a slash at the end. -/
def join (p q : Path) : Path :=
  if q.rooted then q
  else if p.pieces.isEmpty then ⟨p.rooted, q.pieces⟩
  else ⟨p.rooted, withoutSlash p.pieces ++ if q.pieces.isEmpty then [""] else q.pieces⟩

/-- The file of the given name in the directory. -/
def joinName (p : Path) (name : Bytes) : Path :=
  p.join (ofBytes name)

end ModuleReload.Path
