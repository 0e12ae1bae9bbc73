import ModuleReload.Text.Bytes

/-!
# Paths

A path is kept in the pieces between its slashes, exactly as it was written: `a//b/.` is the four
pieces `a`, nothing, `b` and `.`. So printing gives the written form back, which error messages and
answers show, while every question about the path is put to its *components*: an empty piece is
none, a dot is one only in front of a relative path, and two dots stand for the parent directory.
Two paths are the same if their components are (`Path.same`).

The pieces are bytes (`Bytes`), as a file system has them. A text writes the path of its UTF-8
(`Path.ofString`), but a name that is read off a file system need not be UTF-8, and where the name
of a file has to be a text, as in the name of a module, it may have none (`Path.title?`). The text
of a path (`Path.text`) is what messages show of it.

A path from the root without empty pieces and dots is called plain. `Path.ofNames` builds one, and
normalization always ends in one.
-/

namespace ModuleReload

open Text

/-- A path as written: whether it begins with a slash, and the pieces between the slashes after
that. -/
structure Path where
  rooted : Bool
  pieces : List Bytes
  deriving DecidableEq, Repr

/-- What a piece of a path stands for. -/
inductive Component
  | root
  /-- The dot in front of a relative path. -/
  | current
  | parent
  | name (bytes : Bytes)
  deriving DecidableEq, Repr

namespace Path

/-! ## Bytes and text -/

/-- The pieces of the bytes after the leading slash. No bytes have none. -/
def piecesOf (body : Bytes) : List Bytes :=
  if body.isEmpty then [] else cut '/' body

/-- The path that bytes write. -/
def ofBytes (b : Bytes) : Path :=
  match b.toList with
  | '/' :: body => ⟨true, piecesOf (String.ofList body)⟩
  | _ => ⟨false, piecesOf b⟩

def bytes (p : Path) : Bytes :=
  if p.rooted then "/" ++ paste '/' p.pieces else paste '/' p.pieces

/-- The path that a text writes. -/
def ofString (s : String) : Path :=
  ofBytes (encode s)

/-- The text that messages show of a path. -/
def text (p : Path) : String :=
  shown p.bytes

/-- The path from the root through the given names. -/
def ofNames (names : List Bytes) : Path :=
  ⟨true, names⟩

theorem paste_piecesOf (body : Bytes) : paste '/' (piecesOf body) = body := by
  rw [piecesOf]
  split
  · next h => rw [String.isEmpty_iff.mp h]; rfl
  · exact paste_cut '/' body

theorem bytes_ofBytes (b : Bytes) : (ofBytes b).bytes = b := by
  rw [ofBytes]
  split
  · next body h =>
    have hb : b = String.ofList ('/' :: body) := by rw [← h, String.ofList_toList]
    rw [bytes, if_pos rfl, paste_piecesOf, hb, String.ofList_cons]
    rfl
  · simp only [bytes, paste_piecesOf, Bool.false_eq_true, if_false]

theorem text_ofString (s : String) : (ofString s).text = s := by
  rw [text, ofString, bytes_ofBytes, shown_encode]

/-! ## Components -/

/-- The components of pieces that do not stand in front. -/
def componentsOf (pieces : List Bytes) : List Component :=
  pieces.filterMap fun
    | "" => none
    | "." => none
    | ".." => some .parent
    | s => some (.name s)

def components (p : Path) : List Component :=
  match p.rooted, p.pieces with
  | true, pieces => .root :: componentsOf pieces
  | false, "." :: pieces => .current :: componentsOf pieces
  | false, pieces => componentsOf pieces

def same (p q : Path) : Bool :=
  p.components == q.components

/-- Whether the path is `q` or lies below it: its components begin with those of `q`. -/
def isUnder (p q : Path) : Bool :=
  q.components.isPrefixOf p.components

def isEmpty (p : Path) : Bool :=
  !p.rooted && p.pieces.isEmpty

/-! ## Order -/

def rank : Component → Nat × Bytes
  | .root => (0, "")
  | .current => (1, "")
  | .parent => (2, "")
  | .name s => (3, s)

def componentLe (a b : Component) : Bool :=
  (rank a).1 < (rank b).1 || ((rank a).1 == (rank b).1 && (rank a).2 ≤ (rank b).2)

/-- Whether the first list comes before the second in the order of dictionaries. -/
def listLe {α : Type} [BEq α] (le : α → α → Bool) : List α → List α → Bool
  | [], _ => true
  | _ :: _, [] => false
  | a :: as, b :: bs => if a == b then listLe le as bs else le a b

/-- Whether a path comes before another, component by component. -/
def le (p q : Path) : Bool :=
  listLe componentLe p.components q.components

end Path

end ModuleReload
