/-!
# Why a document is refused

A fault of a document is a place in its text and what was wanted there. It is told with the line
that holds the place and a mark below it.

A place at the very end of a text belongs to the last line, even if that one has been ended.
-/

namespace ModuleReload.Toml

/-- What was wanted where a document is at fault. -/
inductive Wanted
  /-- A key. -/
  | key
  /-- A header after its bracket. -/
  | header
  /-- The end of a header, or more of its key. -/
  | headerEnd (closing : String)
  /-- The end of the line after a header. -/
  | headerLineEnd
  /-- The sign between a key and its value, or more of the key. -/
  | equals
  | value
  /-- The end of the line after a value. -/
  | lineEnd
  /-- A name that is not taken. -/
  | fresh
  /-- A value of another kind. -/
  | otherKind
  deriving DecidableEq, Repr

def Wanted.message : Wanted → String
  | key => "invalid key"
  | header => "invalid table header"
  | headerEnd closing => "invalid table header\nexpected \x60.\x60, \x60" ++ closing ++ "\x60"
  | headerLineEnd => "invalid table header\nexpected newline, \x60#\x60"
  | equals => "expected \x60.\x60, \x60=\x60"
  | value => "invalid string\nexpected \x60\"\x60, \x60'\x60"
  | lineEnd => "expected newline, \x60#\x60"
  | fresh => "duplicate key"
  | otherKind => "invalid type"

/-- Why a document is refused. Lines and columns count from 1. -/
structure Fault where
  line : Nat
  column : Nat
  /-- The text of the line. -/
  excerpt : String
  wanted : Wanted
  deriving DecidableEq, Repr

namespace Fault

/-- What precedes a place of a text on its line. -/
def lineSoFar (front : List Char) : List Char :=
  (front.reverse.takeWhile (· ≠ '\n')).reverse

/-- The fault at a place of a text, given by what stands before and after it. -/
def between (front back : List Char) (wanted : Wanted) : Fault :=
  let known := if back.isEmpty then front.dropLast else front
  let start := lineSoFar known
  let line := start ++ (front.drop known.length ++ back).takeWhile (· ≠ '\n')
  ⟨known.count '\n' + 1, start.length + (front.length - known.length) + 1, String.ofList line,
    wanted⟩

def message (f : Fault) : String :=
  let number := toString f.line
  let gutter := "".pushn ' ' (number.length + 1) ++ "|"
  s!"TOML parse error at line {f.line}, column {f.column}\n" ++ gutter ++ "\n" ++
    number ++ " | " ++ f.excerpt ++ "\n" ++
    gutter ++ "".pushn ' ' f.column ++ "^\n" ++ f.wanted.message ++ "\n"

end Fault

end ModuleReload.Toml
