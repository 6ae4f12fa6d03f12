import BmakeZig.Render.Tree
import BmakeZig.Source.Unit
import BmakeZig.Zig.Program

/-! Compiling a unit into a program of Zig. -/
namespace BmakeZig

structure Compiled where
  output : Text
  warnings : List Warning
  environment : Environment
deriving DecidableEq, Repr

/-- What came of a pass, with all it noted. -/
structure Outcome where
  result : Except Fault Compiled
  notes : List Note

namespace Compile

/-- The values that the variables of an environment start with in the program. -/
def seeds (environment : Environment) : Noted (List (Text × Text)) :=
  Noted.each (fun name => ((environment.expand? name).getD ⟨[], []⟩).map (name, ·))
    environment.bound

/-- The declarations of a program: every name ever bound, with its seed or nothing. -/
def declarations (seeds : List (Text × Text)) (environment : Environment) : List (Text × Text) :=
  environment.bound.map fun name => (name, (Table.get? seeds name).getD [])

def tree (context : Context) (root : Node) (environment : Environment) : Outcome :=
  let seeds := seeds environment
  match root.render context.settings.maxIncludeDepth context { environment, notes := seeds.notes }
    with
  | .error fault pass => ⟨.error fault, pass.notes⟩
  | .ok body pass =>
    let output :=
      if context.settings.prelude then
        Zig.program body (declarations seeds.value pass.environment) pass.usesBuilder
      else body
    ⟨.ok ⟨output, pass.warnings, pass.environment⟩, pass.notes⟩

def source (context : Context) (source : Text) (environment : Environment) : Outcome :=
  tree context (context.parse source) environment

/-- The unit at a path. Its neighbours are looked at first for what it includes, and it counts as
the outermost of the units being included. -/
def file (context : Context) (path : Text) : Outcome :=
  match context.load path with
  | .error fault => ⟨.error (.unreadable path fault.message), []⟩
  | .ok text =>
    source { context with root := some (Path.ofText path).normalize } text {}

/-- Several sources in turn, each with the environment that the last success left. -/
def session (context : Context) (environment : Environment) : List Text → List Outcome
  | [] => []
  | text :: rest =>
    let outcome := source context text environment
    let next :=
      match outcome.result with
      | .ok compiled => compiled.environment
      | .error _ => environment
    outcome :: session context next rest

/-- Sources read by the built-in reader, with units from a loader. -/
def standard (load : Loader) (settings : Settings) (process : ProcessEnvironment) : Context :=
  { parse := Source.parse, load, settings, process }

end Compile

end BmakeZig
