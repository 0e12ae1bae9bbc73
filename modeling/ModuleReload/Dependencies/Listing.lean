import ModuleReload.Dependencies.Discovery
import ModuleReload.Text.Unseen

/-!
# Listing known dependencies

The written form of the dependencies that are known: each module with the names of its
dependencies, between braces. Names stand between double quotes, with a backslash in front of quotes
and backslashes, the usual letters for tab, line feed, carriage return and the null character, and a
code point in braces for the other characters that cannot be seen on their own.
-/

namespace ModuleReload

namespace Text

/-- The lower case hexadecimal digits of a number. -/
def hexadecimal (n : Nat) : String :=
  String.ofList (Nat.toDigits 16 n)

/-- How a character is written between quotes. -/
def escaped (c : Char) : String :=
  match c with
  | '"' => "\\\""
  | '\\' => "\\\\"
  | '\t' => "\\t"
  | '\n' => "\\n"
  | '\r' => "\\r"
  | '\x00' => "\\0"
  | c => if isUnseen c then "\\u\x7b" ++ hexadecimal c.toNat ++ "\x7d" else c.toString

def quoted (s : String) : String :=
  "\"" ++ String.join (s.toList.map escaped) ++ "\""

end Text

namespace Dependencies

/-- The written form of one module's dependencies. -/
def entryText (e : String × List Module) : String :=
  Text.quoted e.1 ++ ": [" ++ Text.listed (e.2.map fun m ↦ Text.quoted m.name) ++ "]"

/-- The written form of all dependencies that are known. -/
def text (d : Dependencies) : String :=
  "\x7b" ++ Text.listed (d.entries.map entryText) ++ "\x7d"

end Dependencies

end ModuleReload
