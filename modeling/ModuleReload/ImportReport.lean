import ModuleReload.Module.Place
import ModuleReload.Name.Relative
import ModuleReload.Notice
import ModuleReload.Source.Discovery

/-!
# Reporting the imports of a file

The names that a file imports are reported line by line, each distinct one once. Relative names are
resolved first, which needs the name of the file's module and of its package: both may be given,
and else the package is the one that the module's name says, or both are what the place of the file
says. Where neither is known the names stay as they are written. A name that does not resolve is
left out, with a notice.
-/

namespace ModuleReload.ImportReport

/-- Why the imports of a file cannot be reported. -/
inductive Error
  | notAFile (p : Path)
  | unparsable (p : Path) (cause : Source.SyntaxError)
  deriving DecidableEq, Repr

def Error.message : Error → String
  | notAFile p => "\x60" ++ p.text ++ "\x60 is not a file"
  | unparsable p cause => "cannot parse \x60" ++ p.text ++ "\x60: " ++ cause.message

/-- What relative names are resolved against. -/
structure Context where
  module : String
  package : String
  deriving DecidableEq, Repr

/-- The context of a module that is given by its name. -/
def Context.named (module : String) (package : Option String) : Context :=
  ⟨module, package.getD ((Name.parent? module).getD "")⟩

/-- The context that the place of a file says. A package that is given counts more. -/
def Context.placed? (fs : FileSystem) (p : Path) (package : Option String) : Option Context :=
  (Place.Spec.of? fs p).map fun spec ↦ ⟨spec.name, (package.or spec.package).getD ""⟩

/-- The context of a file, of whose module the names may be given. -/
def Context.of? (fs : FileSystem) (p : Path) (module package : Option String) : Option Context :=
  match module with
  | some module => some (Context.named module package)
  | none => Context.placed? fs p package

/-- Says that a name is left out. -/
def unresolved (e : Name.BeyondTopLevel) : Notice :=
  ⟨"imports", .always, e.message⟩

/-- The lines for names, and notices for those that are left out. -/
def lines (context : Option Context) (names : List String) : List String × List Notice :=
  match context with
  | none => (names.eraseDups, [])
  | some c =>
    let resolved := names.map (Name.resolve c.package c.module)
    ((resolved.filterMap Except.toOption).eraseDups,
      resolved.filterMap fun
        | .error e => some (unresolved e)
        | .ok _ => none)

/-- The report on a file. -/
def ofFile (fs : FileSystem) (scope : Source.Scope) (p : Path) (module package : Option String) :
    Except Error (List String × List Notice) :=
  if !fs.isFile p then .error (.notAFile p)
  else
    match Source.importsAt fs scope p with
    | .error cause => .error (.unparsable p cause)
    | .ok names => .ok (lines (Context.of? fs p module package) names)

end ModuleReload.ImportReport
