import BmakeZig.Environment.Basic
import BmakeZig.Environment.Script
import BmakeZig.Fault
import BmakeZig.Path
import BmakeZig.Settings
import BmakeZig.Tree.Node
import BmakeZig.Units.Library

/-! One pass over a tree: what it reads from its surroundings, and what it changes on the way. A
pass that fails keeps what it had noted so far. -/
namespace BmakeZig

/-- The surroundings of the unit being rendered. -/
structure Context where
  /-- Reads the text of an included unit into a tree. -/
  parse : Text → Node
  load : Loader
  process : ProcessEnvironment := []
  settings : Settings := {}
  /-- Where the unit that the pass started with lies, if it was read from a path. -/
  root : Option Path := none
  /-- The units being included, the innermost first. -/
  stack : List Path := []

structure Pass where
  environment : Environment := {}
  searchDirs : List Path := []
  warnings : List Warning := []
  /-- Whether some rule registered a step of the build. -/
  usesBuilder : Bool := false
  notes : List Note := []
deriving DecidableEq, Repr

abbrev Render := EStateM Fault Pass

namespace Render

def note (note : Note) : Render Unit :=
  modify fun pass => { pass with notes := pass.notes ++ [note] }

/-- The value, with its notes added to those of the pass. -/
def noted (noted : Noted α) : Render α := do
  modify fun pass => { pass with notes := pass.notes ++ noted.notes }
  return noted.value

def warn (line : Nat) (message : Text) : Render Unit := do
  note (.warned ⟨line, message⟩)
  modify fun pass => { pass with warnings := pass.warnings ++ [⟨line, message⟩] }

def environment : Render Environment := do
  return (← get).environment

def setEnvironment (environment : Environment) : Render Unit :=
  modify fun pass => { pass with environment }

def assign (name value : Text) : Render Unit := do
  note (Environment.noteAssign name value)
  setEnvironment ((← environment).assign name value)

def append (name value separator : Text) : Render Unit := do
  let before ← environment
  note (before.noteAppend name value separator)
  setEnvironment (before.append name value separator)

def undefine (name : Text) : Render Unit := do
  setEnvironment ((← environment).undefine name)

def unknown (node : Node) : Fault :=
  .unknownKind node.kind.name node.line

def malformed (node : Node) (expected : String) : Fault :=
  .malformed node.kind.name node.line expected.toList

/-- What a rule needs of its node, which is malformed without it. -/
def require (node : Node) (expected : String) : Option α → Render α
  | some found => return found
  | none => throw (malformed node expected)

/-- The text of an unnamed node that has no rule, under a warning. -/
def verbatim (node : Node) : Render Text := do
  warn node.line <|
    "no rendering rule for unnamed '".toList ++ node.kind.name ++
      "' node, emitting its text verbatim".toList
  return node.text

end Render

end BmakeZig
