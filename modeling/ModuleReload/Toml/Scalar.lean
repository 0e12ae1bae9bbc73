import ModuleReload.Text.Pieces
import ModuleReload.Toml.Text
import ModuleReload.Toml.Value

/-!
# Numbers, moments and truth values of a TOML document

All of these are written in one word, except that a blank may stand between a date and a time. The
word decides which it is. Underscores may stand between two digits; a number has no leading zero
unless it is in another base; an integer fits into 64 bits with a sign; and a number in floating
point is not beyond the greatest one.
-/

namespace ModuleReload.Toml

open Text

/-! ## Integers -/

/-- Digits with underscores between them, without those. -/
def digits? (isDigit : Char → Bool) (cs : List Char) : Option (List Char) :=
  let groups := pieces '_' cs
  if groups.all fun g ↦ !g.isEmpty && g.all isDigit then some groups.flatten else none

/-- The number that decimal digits write. -/
def decimal (cs : List Char) : Nat :=
  cs.foldl (fun n c ↦ n * 10 + (c.toNat - '0'.toNat)) 0

/-- Decimal digits without a leading zero. -/
def wholeDigits? (cs : List Char) : Option (List Char) :=
  if cs.length ≠ 1 ∧ cs.head? = some '0' then none else digits? Char.isDigit cs

/-- Whether a number is negative, and what follows its sign. -/
def signed : List Char → Bool × List Char
  | '-' :: cs => (true, cs)
  | '+' :: cs => (false, cs)
  | cs => (false, cs)

def greatest : Nat := Nat.pow 2 63 - 1

/-- An integer in another base than ten, after the letter of the base. -/
def basedInteger? (base : Nat) (cs : List Char) : Option Value :=
  let isDigit (c : Char) : Bool := (hexValue? c).any (· < base)
  match digits? isDigit cs with
  | none => none
  | some ds =>
    let n := ds.foldl (fun n c ↦ n * base + (hexValue? c).getD 0) 0
    if n ≤ greatest then some (.integer n) else none

def integer? : List Char → Option Value
  | '0' :: 'x' :: cs => basedInteger? 16 cs
  | '0' :: 'o' :: cs => basedInteger? 8 cs
  | '0' :: 'b' :: cs => basedInteger? 2 cs
  | cs =>
    let (negative, cs) := signed cs
    match wholeDigits? cs with
    | none => none
    | some ds =>
      let n := decimal ds
      if negative then if n ≤ greatest + 1 then some (.integer (-n)) else none
      else if n ≤ greatest then some (.integer n) else none

/-! ## Floating point -/

/-- Whether the digits `ds`, with a point `places` places from the right and scaled by a power of
ten, reach the number from which on a double is infinite. -/
def isInfinite (ds : List Char) (places : Nat) (scale : Int) : Bool :=
  let significant := ds.dropWhile (· = '0')
  let magnitude : Int := significant.length - places + scale
  if significant.isEmpty || magnitude < 309 then false
  else if 310 ≤ magnitude then true
  else
    let n := decimal significant
    let shift : Int := scale - places
    let bound := Nat.pow 2 1024 - Nat.pow 2 970
    if 0 ≤ shift then bound ≤ n * Nat.pow 10 shift.toNat
    else bound * Nat.pow 10 (-shift).toNat ≤ n

/-- The digits of a mantissa and how many of them stand after its point. -/
def mantissa? (cs : List Char) : Option (List Char × Nat) :=
  match pieces '.' cs with
  | [whole] => (wholeDigits? whole).map fun ds ↦ (ds, 0)
  | [whole, fraction] =>
    match wholeDigits? whole, digits? Char.isDigit fraction with
    | some ds, some fs => some (ds ++ fs, fs.length)
    | _, _ => none
  | _ => none

/-- The exponent that digits after a sign write. -/
def exponent? (cs : List Char) : Option Int :=
  let (negative, cs) := signed cs
  (digits? Char.isDigit cs).map fun ds ↦ if negative then -(decimal ds : Int) else decimal ds

/-- A number in floating point. A point or an exponent marks it. -/
def float? (cs : List Char) : Option Value :=
  let (negative, cs) := signed cs
  if cs = ['i', 'n', 'f'] ∨ cs = ['n', 'a', 'n'] then some .float
  else if !cs.any fun c ↦ c == '.' || c == 'e' || c == 'E' then none
  else
    let front := cs.takeWhile fun c ↦ c ≠ 'e' ∧ c ≠ 'E'
    let scale? := match cs.drop front.length with
      | [] => some 0
      | _ :: exponent => exponent? exponent
    match mantissa? front, scale? with
    | some (ds, places), some scale =>
      if !negative && isInfinite ds places scale then none else some .float
    | _, _ => none

/-! ## Moments -/

/-- The number that two digits write, if it is at least `low` and at most `high`. -/
def isTwoDigits (low high : Nat) (a b : Char) : Bool :=
  a.isDigit && b.isDigit && low ≤ decimal [a, b] && decimal [a, b] ≤ high

/-- The days of a month. -/
def daysOf (year month : Nat) : Nat :=
  match month with
  | 2 => if year % 4 = 0 ∧ (year % 100 ≠ 0 ∨ year % 400 = 0) then 29 else 28
  | 4 | 6 | 9 | 11 => 30
  | _ => 31

/-- What follows a date. -/
def afterDate? : List Char → Option (List Char)
  | y₁ :: y₂ :: y₃ :: y₄ :: '-' :: m₁ :: m₂ :: '-' :: d₁ :: d₂ :: cs =>
    let year := [y₁, y₂, y₃, y₄]
    if year.all Char.isDigit && isTwoDigits 1 12 m₁ m₂ &&
        isTwoDigits 1 (daysOf (decimal year) (decimal [m₁, m₂])) d₁ d₂ then some cs
    else none
  | _ => none

/-- What follows a time of day, its fraction of a second included. -/
def afterTime? : List Char → Option (List Char)
  | h₁ :: h₂ :: ':' :: m₁ :: m₂ :: ':' :: s₁ :: s₂ :: cs =>
    if isTwoDigits 0 23 h₁ h₂ && isTwoDigits 0 59 m₁ m₂ && isTwoDigits 0 60 s₁ s₂ then
      match cs with
      | '.' :: d :: cs => if d.isDigit then some (cs.dropWhile Char.isDigit) else none
      | '.' :: [] => none
      | cs => some cs
    else none
  | _ => none

/-- Whether the characters are an offset from universal time, or none. -/
def isOffset : List Char → Bool
  | [] | ['Z'] | ['z'] => true
  | [sign, h₁, h₂, ':', m₁, m₂] =>
    (sign == '+' || sign == '-') && isTwoDigits 0 23 h₁ h₂ && isTwoDigits 0 59 m₁ m₂
  | _ => false

/-- A date, a time of day, or both. -/
def moment? (cs : List Char) : Option Value :=
  let valid := match afterDate? cs with
    | some [] => true
    | some (c :: rest) =>
      (c == 'T' || c == 't' || c == ' ') && (afterTime? rest).any isOffset
    | none => afterTime? cs == some []
  if valid then some .moment else none

/-! ## Words -/

/-- A character of a word that may be a number or a moment. -/
def isScalar (c : Char) : Bool :=
  c.isAlphanum || c == '+' || c == '-' || c == '_' || c == '.' || c == ':'

/-- The value that a word writes. -/
def word? (cs : List Char) : Option Value :=
  if cs = ['t', 'r', 'u', 'e'] then some (.boolean true)
  else if cs = ['f', 'a', 'l', 's', 'e'] then some (.boolean false)
  else (moment? cs).or ((float? cs).or (integer? cs))

/-- A value in one word, or in two if a time follows a date after a blank. -/
def scalar : Reader Value := fun cs ↦
  let front := cs.takeWhile isScalar
  let rest := cs.dropWhile isScalar
  match afterDate? front, rest with
  | some [], ' ' :: d :: more =>
    if d.isDigit then
      (word? (front ++ ' ' :: d :: more.takeWhile isScalar)).map (·, more.dropWhile isScalar)
    else (word? front).map (·, rest)
  | _, _ => (word? front).map (·, rest)

end ModuleReload.Toml
