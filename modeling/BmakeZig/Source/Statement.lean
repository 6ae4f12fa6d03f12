import BmakeZig.Source.Condition
import BmakeZig.Source.Cursor
import BmakeZig.Source.Directive

/-! Statements that stand on one line. Each reader gets what is unread of the line, starting with
the statement, and hands back what it leaves of the line. -/
namespace BmakeZig.Source

def comment (line : Nat) (here : Text) : Node :=
  Node.leaf .comment line (Text.trimEnd here)

def diagnostic (directive : Directive) (line : Nat) (here : Text) : Node :=
  Node.branch .diagnostic line here
    [Node.token line directive.spelling,
      phrase .message line (Text.skipSpaces (directive.argument here))]

/-- A directive whose argument is a path, which must not be empty. -/
def pathDirective (kind : Kind) (directive : Directive) (line : Nat) (here : Text) : Option Node :=
  let path := phrase .path line (Text.skipSpaces (directive.argument here))
  if path.text = [] then none
  else some (Node.branch kind line here [Node.token line directive.spelling, path])

def undef (line : Nat) : Reader := fun here =>
  match Text.name? (Text.skipSpaces (Directive.undef.argument here)) with
  | none => none
  | some (name, left) =>
    if atLineEnd left then
      some (Node.branch .undef line (Text.consumed here left)
        [Node.token line Directive.undef.spelling, Node.leaf .identifier line name],
        Text.skipSpaces left)
    else none

structure Operator where
  spelling : Text
  appends : Bool
  expands : Bool

/-- The assignment operators. One that starts with another one is tried before it. -/
def operators : List Operator :=
  [⟨['=', '%'], false, true⟩, ⟨['+', '%'], true, true⟩, ⟨['+', '='], true, false⟩,
    ⟨['='], false, false⟩, ⟨['+'], true, false⟩]

def operator? (text : Text) : Option (Operator × Text) :=
  operators.findSome? fun operator =>
    (Text.after? operator.spelling text).map fun rest => (operator, rest)

def assignment (line : Nat) (here : Text) : Option Node :=
  match Text.name? here with
  | none => none
  | some (name, after) =>
    (operator? (Text.skipSpaces after)).map fun (operator, rest) =>
      Node.branch (.assignment operator.appends operator.expands) line (Text.trimEnd here)
        [Node.leaf .identifier line name, Node.token line operator.spelling,
          phrase .value line (Text.skipSpaces rest)]

/-- The line as a span that could not be read. -/
def errorLine (c : Cursor) : Node × Cursor :=
  (Node.leaf .error c.line c.here, c.lineEnd)

end BmakeZig.Source
