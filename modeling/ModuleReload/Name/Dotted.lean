import ModuleReload.Text.Letter
import ModuleReload.Text.Pieces

/-!
# Dotted names

Modules are named by their place in the packages around them, from the outermost package inwards,
with a dot between each two names. The package that holds a module is its name without the last
part.
-/

namespace ModuleReload.Name

open Text

/-- The name without its last part: the package that holds the module, if one does. -/
def parent? (name : String) : Option String :=
  match cut '.' name with
  | [] | [_] => none
  | parts => some (paste '.' parts.dropLast)

def level (name : String) : Nat :=
  name.toList.count '.'

/-- Whether the first name is the second or a package around it. -/
def isAround (outer inner : String) : Bool :=
  (cut '.' outer).isPrefixOf (cut '.' inner)

/-- Whether a text is a name: it begins as one and goes on as one. -/
def isPart (part : String) : Bool :=
  part.toList.head?.any startsName && part.toList.all continuesName

/-- Whether a text is a dotted name: names between single dots. -/
def isDotted (name : String) : Bool :=
  (cut '.' name).all isPart

end ModuleReload.Name
