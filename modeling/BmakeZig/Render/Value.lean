import BmakeZig.Render.Pass
import BmakeZig.Zig.Program

/-! Values: the fragments a node holds, what becomes of them while the unit is being compiled, and
the expression that yields them when the program runs. -/
namespace BmakeZig

namespace Fragment

/-- A reference inside a value that was itself put in place at once: an immediate one is expanded
fully. -/
def settle (environment : Environment) : Fragment → Noted Fragment
  | .reference name .immediate =>
    match environment.expand? name with
    | some expanded => expanded.map .literal
    | none => ⟨.literal [], []⟩
  | fragment => ⟨fragment, []⟩

/-- What a fragment of the node on `line` stands for: an immediate reference for the stored value,
anything else for itself. -/
def substitute (environment : Environment) (line : Nat) : Fragment → Noted (List Fragment)
  | .reference name .immediate =>
    match environment.get? name with
    | some value => Noted.each (settle environment) (split value)
    | none => ⟨[], [.unboundImmediate line name]⟩
  | fragment => ⟨[fragment], []⟩

def substituteAll (environment : Environment) (line : Nat) (fragments : List Fragment) :
    Noted (List Fragment) :=
  (Noted.each (substitute environment line) fragments).map List.flatten

/-- A literal with the value a reference has at this moment. -/
def freeze (environment : Environment) (line : Nat) : Fragment → Noted Fragment
  | .reference name mode =>
    match environment.expand? name with
    | some expanded => expanded.map fun text => .literal (mode.strip text)
    | none => ⟨.literal [], [.unboundFrozen line name]⟩
  | fragment => ⟨fragment, []⟩

/-- The expression for one fragment. Only a live variable is read from the program's own. -/
def term (environment : Environment) : Fragment → Text
  | .literal text => Zig.literal text
  | .reference name mode =>
    let value :=
      if environment.contains name then Zig.variableNamed name else Zig.processVariableOrEmpty name
    match mode with
    | .stripping => Zig.withoutEndSlashes value
    | _ => value

def expression (environment : Environment) (fragments : List Fragment) : Text :=
  Zig.sequence ((merge fragments).map (term environment))

/-- The text of a fragment in a path, which has to be known at once. A name that is not live is
looked up in the process environment. -/
def static (environment : Environment) (process : ProcessEnvironment) : Fragment → Noted Text
  | .literal text => ⟨text, []⟩
  | .reference name mode =>
    match environment.expand? name with
    | some expanded => expanded.map mode.strip
    | none =>
      match process.get? name with
      | some value => ⟨mode.strip value, []⟩
      | none => ⟨[], [.unsetInPath name]⟩

def staticText (environment : Environment) (process : ProcessEnvironment)
    (fragments : List Fragment) : Noted Text :=
  (Noted.each (static environment process) fragments).map List.flatten

end Fragment

namespace Render

/-- The reference an expansion node makes. There is no rule for modifiers. -/
def reference (node : Node) (mode : Mode) : Render Fragment := do
  match node.find? .expansionMod with
  | some modifier => throw (unknown modifier)
  | none =>
    let name ← require node "variable name" (node.find? .identifier)
    return .reference name.text mode

/-- The fragments that a child adds to its parent's value. -/
def childFragments (child : Node) : Render (List Fragment) := do
  match child.kind with
  | .literal => return Fragment.split child.text
  | .expansion mode => return [← reference child mode]
  | _ => if child.named then throw (unknown child) else return [.literal (← verbatim child)]

def collect : List Node → Render (List Fragment)
  | [] => return []
  | child :: rest => do
    let first ← childFragments child
    return first ++ (← collect rest)

/-- The fragments written in a node. A node without children is cut up by its text. -/
def writtenFragments (node : Node) : Render (List Fragment) := do
  match node.kind with
  | .expansion mode => return [← reference node mode]
  | _ =>
    if node.children.isEmpty then return Fragment.split node.text else collect node.children

/-- The fragments of a node, immediate references put in place. -/
def fragments (node : Node) : Render (List Fragment) := do
  let written ← writtenFragments node
  noted (Fragment.substituteAll (← environment) node.line written)

/-- The expression for the value of a node. -/
def value (node : Node) : Render Text := do
  let found ← fragments node
  return Fragment.expression (← environment) found

/-- The text of a path, expanded at once. -/
def staticPath (context : Context) (path : Node) : Render Text := do
  let found ← fragments path
  noted (Fragment.staticText (← environment) context.process found)

end Render

end BmakeZig
