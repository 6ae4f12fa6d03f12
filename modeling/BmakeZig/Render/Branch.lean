import BmakeZig.Render.Statement

/-! The rules for nodes below which other nodes are rendered. A rule gets its children as parts: the
child, how it renders, and how it renders as a clause of a conditional. It decides which of them
run, and in which order. -/
namespace BmakeZig

structure Part where
  node : Node
  text : Render Text
  /-- Renders as a clause of the given conditional. -/
  clause : Node → Render Text

namespace Render

def namedParts (parts : List Part) : List Part :=
  parts.filter (·.node.named)

def findPart? (parts : List Part) (kind : Kind) : Option Part :=
  (namedParts parts).find? fun part => part.node.kind = kind

/-- The texts of all parts, in order. -/
def texts : List Part → Render (List Text)
  | [] => return []
  | part :: rest => do
    let text ← part.text
    return text :: (← texts rest)

/-- The parts of a list of statements, one below the other. -/
def lines (parts : List Part) : Render Text := do
  return Text.joinWith ['\n'] (← texts parts)

def clauses (node : Node) : List Part → Render Text
  | [] => return []
  | part :: rest => do
    let text ← part.clause node
    return text ++ (← clauses node rest)

/-- The keyword a conditional starts with. -/
def keyword (parts : List Part) : Text :=
  match parts.find? (!·.node.named) with
  | some part => part.node.text
  | none => "%if".toList

/-- The test of a conditional, as its keyword asks for it. -/
def test (keyword : Text) (part : Part) : Render Text := do
  if keyword = "%ifdef".toList then return Zig.isSet part.node.text
  else if keyword = "%ifndef".toList then return Zig.isUnset part.node.text
  else if keyword = "%iffile".toList then return Zig.fileExists (← part.text)
  else if keyword = "%ifnofile".toList then return '!' :: Zig.fileExists (← part.text)
  else part.text

/-- A test and the block that depends on it. -/
def guarded (test body : Text) : Text :=
  "if (".toList ++ test ++ ") ".toList ++ Zig.block body

def conditional (node : Node) (parts : List Part) : Render Text := do
  let named := namedParts parts
  -- Both children have to be there before either is rendered.
  let condition ← require node "condition" named[0]?
  let body ← require node "body" named[1]?
  let condition ← test (keyword parts) condition
  let body ← body.text
  return guarded condition body ++ (← clauses node (named.drop 2))

/-- A node as a clause of the conditional `parent`. -/
def clause (node : Node) (parts : List Part) (parent : Node) : Render Text := do
  let named := namedParts parts
  match node.kind with
  | .elifClause =>
    let condition ← require node "condition" named[0]?
    let body ← require node "body" named[1]?
    let condition ← condition.text
    let body ← body.text
    return " else ".toList ++ guarded condition body
  | .elseClause =>
    let body ← require node "body" named[0]?
    return " else ".toList ++ Zig.block (← body.text)
  | _ => throw (malformed parent "elif or else clause")

def bracketed (text : Text) : Text :=
  '(' :: text ++ [')']

/-- Both operands of a node, each with its kind. -/
def bothOperands (node : Node) (parts : List Part) : Render ((Kind × Text) × (Kind × Text)) := do
  let named := namedParts parts
  let left ← require node "left operand" named[0]?
  let right ← require node "right operand" named[1]?
  let leftText ← left.text
  let rightText ← right.text
  return ((left.node.kind, leftText), (right.node.kind, rightText))

def equality (node : Node) (parts : List Part) : Render Text := do
  let (left, right) ← bothOperands node parts
  return Zig.equal left.2 right.2

def disjunction (node : Node) (parts : List Part) : Render Text := do
  let (left, right) ← bothOperands node parts
  return left.2 ++ " or ".toList ++ right.2

/-- Alternatives bind looser than a conjunction, so they need brackets inside one. -/
def conjunct (operand : Kind × Text) : Text :=
  if operand.1 = .or then bracketed operand.2 else operand.2

def conjunction (node : Node) (parts : List Part) : Render Text := do
  let (left, right) ← bothOperands node parts
  return conjunct left ++ " and ".toList ++ conjunct right

def negation (node : Node) (parts : List Part) : Render Text := do
  let operand ← require node "operand" (namedParts parts)[0]?
  let text ← operand.text
  match operand.node.kind with
  | .and | .or => return '!' :: bracketed text
  | _ => return '!' :: text

def diagnostic (node : Node) (parts : List Part) : Render Text := do
  let marker ← require node "marker" parts[0]?
  let message ← match parts[1]? with
    | some message => message.text
    | none => pure (Zig.literal [])
  match diagnose marker.node.text message node.line with
  | .ok call => return call
  | .error fault => throw fault

def rule (node : Node) (parts : List Part) : Render Text := do
  let target ← require node "target" (namedParts parts)[0]?
  let body ← match findPart? parts .ruleBody with
    | some body => body.text
    | none => pure []
  match target.node.kind with
  | .always => return body
  | .targetDecl =>
    modify fun pass => { pass with usesBuilder := true }
    return Zig.buildStep target.node.text body
  | _ => throw (unknown target.node)

/-- The call for a built-in command, if there is one. -/
def builtin? (name command : Text) : Option Text :=
  if name = "~mkdir".toList then
    some ("try std.fs.cwd().makePath(".toList ++ command ++ ");".toList)
  else if name = "~time".toList then
    some (Zig.print "\x7bs\x7d\x7bd\x7d\\n".toList
      (" ".toList ++ command ++ ", std.time.timestamp() ".toList))
  else if name = "~task".toList ∨ name = "~current".toList then
    some (Zig.print "==> \x7bs\x7d\\n".toList command)
  else none

/-- A command of a rule. A bar or an exclamation mark has its text printed instead of run. -/
def plainCommand (modifiers command : Text) : Text :=
  if modifiers.contains '|' then Zig.print "\x7bs\x7d\\n".toList command
  else if modifiers.contains '!' then Zig.print "\x7bs\x7d".toList command
  else Zig.run command (!modifiers.contains '@') (!modifiers.contains '-')

def buildCommand (node : Node) (parts : List Part) : Render Text := do
  let modifiers := (node.namedChildren.filter fun child => child.kind = .commandMod).flatMap (·.text)
  let command ← match findPart? parts .command with
    | some command => command.text
    | none => pure (Zig.literal [])
  match node.find? .builtinCommand with
  | none => return plainCommand modifiers command
  | some name =>
    match builtin? name.text command with
    | some call => return call
    | none =>
      warn node.line ("unsupported builtin command '".toList ++ name.text ++ "'".toList)
      return "// ".toList ++ node.text

end Render

end BmakeZig
