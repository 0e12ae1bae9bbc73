import ModuleReload.CommandLine.Grammar

/-!
# Reading a command line

Arguments are read from left to right. One that begins with two dashes gives an option by its name,
one with a single dash gives options by their letters; a value follows after an equals sign, or
right after the letter, or as the next argument. Two dashes alone end the options, and what is left
is an operand or a command.

A value that came as an argument of its own is checked no sooner than the next option is given or
the arguments end (`Reading.settle`). So an unknown argument is told of rather than a bad value
right before it, and what is wrong with a command rather than the last value in front of it.
-/

namespace ModuleReload

/-- What has been read. -/
structure Reading where
  /-- The options and operands given, by name, each with its value if it takes one. -/
  given : List (String × String)
  /-- An option or operand whose value is still to come or to be checked. -/
  waiting : Option (Switch × Option String)
  /-- Whether the operand has come. -/
  full : Bool
  /-- Whether the options have ended. -/
  ended : Bool

namespace Reading

def empty : Reading :=
  ⟨[], none, false, false⟩

/-! ## What was given -/

def values (r : Reading) (s : Switch) : List String :=
  (r.given.filter (·.1 == s.name)).map Prod.snd

/-- The value of an option that has at most one. -/
def value? (r : Reading) (s : Switch) : Option String :=
  (r.values s).head?

/-- Whether an option was given. -/
def has (r : Reading) (s : Switch) : Bool :=
  r.given.any (·.1 == s.name)

/-! ## Giving options -/

/-- Takes an option with its value. -/
def put (s : Switch) (v : String) (r : Reading) : Except UsageError Reading :=
  if (s.kind = .flag ∨ s.kind = .single) ∧ r.has s then .error .givenTwice
  else if !s.accepts v then .error .invalidValue
  else .ok { r with given := r.given ++ [(s.name, v)] }

/-- Takes what is waiting. An option whose value did not come is an error. -/
def settle (r : Reading) : Except UsageError Reading :=
  match r.waiting with
  | none => .ok r
  | some (_, none) => .error .invalidValue
  | some (s, some v) => { r with waiting := none }.put s v

/-- Takes an option with the value in the same argument. -/
def attach (s : Switch) (v : String) (r : Reading) : Except UsageError Reading := do
  (← r.settle).put s v

def await (s : Switch) (r : Reading) : Except UsageError Reading := do
  return { ← r.settle with waiting := some (s, none) }

/-- Takes an option without a value. -/
def raise (s : Switch) (r : Reading) : Except UsageError Reading := do
  let r ← r.settle
  match s.kind with
  | .help => .error .help
  | .version => .error .version
  | _ => r.put s ""

/-! ## Arguments -/

/-- Reads an argument after its two dashes. -/
def long (g : Grammar) (body : String) (r : Reading) : Except UsageError Reading :=
  let name := String.ofList (body.toList.takeWhile (· ≠ '='))
  match g.named? name, body.toList.dropWhile (· ≠ '=') with
  | none, _ => .error .unknownArgument
  | some s, [] => if s.kind.takesValue then r.await s else r.raise s
  | some s, _ :: v =>
    if s.kind.takesValue then r.attach s (String.ofList v) else .error .valueForFlag

/-- Reads an argument after its single dash. -/
def letters (g : Grammar) : List Char → Reading → Except UsageError Reading
  | [], r => .ok r
  | c :: cs, r =>
    match g.lettered? c with
    | none => .error .unknownArgument
    | some s =>
      if s.kind.takesValue then
        match cs with
        | [] => r.await s
        -- An equals sign after the letter is no part of the value.
        | '=' :: v => r.attach s (String.ofList v)
        | v => r.attach s (String.ofList v)
      else do letters g cs (← r.raise s)

/-- Reads an argument that is no option. -/
def operand (g : Grammar) (arg : String) (r : Reading) : Except UsageError Reading :=
  match g.operand, r.full with
  | some s, false => do
    return { ← r.settle with waiting := some (s, some arg), full := true }
  | _, _ =>
    match g.command? with
    | none => .error .unknownArgument
    | some command? =>
      if r.ended && (command? arg).isSome then .error .unknownArgument else .error .unknownCommand

/-- Reads an argument that is no command. -/
def argument (g : Grammar) (arg : String) (r : Reading) : Except UsageError Reading :=
  if r.ended then r.operand g arg
  else
    match arg.toList with
    | ['-', '-'] => .ok { r with ended := true }
    | '-' :: '-' :: body => r.long g (String.ofList body)
    | '-' :: c :: cs => r.letters g (c :: cs)
    | _ =>
      match r.waiting with
      | some (s, none) => .ok { r with waiting := some (s, some arg) }
      | _ => r.operand g arg

/-- Whether the next argument is the value of an option. -/
def awaits (r : Reading) : Bool :=
  match r.waiting with
  | some (_, none) => true
  | _ => false

/-- The command that an argument stands for, where a command may stand. -/
def command? (g : Grammar) (arg : String) (r : Reading) : Option CommandName :=
  if r.ended || r.awaits then none else g.command?.bind (· arg)

/-- Reads arguments up to a command, if one comes: what was read, and the command with what
follows it. -/
def upToCommand (g : Grammar) :
    List String → Reading → Except UsageError (Reading × Option (CommandName × List String))
  | [], r => .ok (r, none)
  | arg :: args, r =>
    match r.command? g arg with
    | some name => .ok (r, some (name, args))
    | none => do upToCommand g args (← r.argument g arg)

/-- Reads all that follows a command, which has to have its operand. -/
def ofCommand (g : Grammar) (args : List String) : Except UsageError Reading := do
  let (r, _) ← empty.upToCommand g args
  let r ← r.settle
  if g.operand.any (!r.has ·) then .error .missingOperand else .ok r

end Reading

/-! ## The command line -/

namespace CommandLine

/-- The greatest count of an option. -/
def greatestCount : Nat := 255

/-- The options around a command and after it, as they hold together: where one is given on both
sides, the one after the command counts. -/
def combine (outer inner : Reading) (command : Command) : CommandLine :=
  let value? (s : Switch) := (inner.value? s).or (outer.value? s)
  -- The counts before and after the command are not added up.
  let counted := if inner.has .verbose then inner.values .verbose else outer.values .verbose
  ⟨((value? .colour).bind ColourChoice.ofLabel?).getD .auto, min counted.length greatestCount,
    (value? .config).map .ofString, command⟩

/-- The path that is the operand of a command. -/
def pathOf (r : Reading) (s : Switch) : Path :=
  .ofString ((r.value? s).getD "")

/-- The error that a request for help ends with. It may be about a command, and then names it. -/
def helpOn : List String → UsageError
  | [] => .help
  | name :: names =>
    if (CommandName.ofWord? name).isSome && names.isEmpty then .help else .unknownCommand

/-- Reads what follows a command. -/
def readCommand (name : CommandName) (args : List String) :
    Except UsageError (Reading × Command) := do
  match name with
  | .imports =>
    let r ← Reading.ofCommand .imports args
    return (r, .imports (pathOf r .file) (r.has .deep) (r.value? .module) (r.value? .package))
  | .graph =>
    let r ← Reading.ofCommand .graph args
    return (r, .graph (pathOf r .root) (r.has .deep))
  | .watch =>
    let r ← Reading.ofCommand .watch args
    return (r, .watch (pathOf r .root) (r.values .entry))
  | .help => .error (helpOn args)

/-- Reads a command line, without the name of the program. -/
def ofArguments (args : List String) : Except UsageError CommandLine := do
  let (outer, rest) ← Reading.empty.upToCommand .program args
  match rest with
  | some (name, args) =>
    let (inner, command) ← readCommand name args
    return combine (← outer.settle) inner command
  | none =>
    let outer ← outer.settle
    .error (if outer.given.isEmpty then .nothing else .missingCommand)

end CommandLine

end ModuleReload
