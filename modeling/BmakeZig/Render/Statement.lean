import BmakeZig.Fault
import BmakeZig.Render.Value

/-! The rules for nodes below which nothing else is rendered. -/
namespace BmakeZig.Render

/-- A comment, behind the slashes of the program instead of a hash sign. -/
def comment (text : Text) : Text :=
  match text with
  | '#' :: rest => '/' :: '/' :: rest
  | _ => '/' :: '/' :: text

/-- The text between the quotes of a string, if it has both. -/
def unquote (text : Text) : Text :=
  match text with
  | '"' :: rest => if rest.getLast? = some '"' then rest.dropLast else text
  | _ => text

def isDefined (node : Node) : Render Text := do
  let name ← require node "variable name" (node.find? .identifier)
  return Zig.isSet name.text

def undef (node : Node) : Render Text := do
  let name ← require node "variable name" (node.find? .identifier)
  undefine name.text
  return Zig.set name.text (Zig.literal [])

/-- The statement that appends to a live variable: the separator is left out next to nothing. -/
def appendStatement (name previous stored separator value : Text) : Text :=
  let middle :=
    if separator.isEmpty || previous.isEmpty || stored.isEmpty then []
    else [Zig.literal separator]
  Zig.set name (Zig.concat (Zig.variableNamed name :: middle ++ [value]))

def assignment (settings : Settings) (node : Node) (appends expands : Bool) : Render Text := do
  let name ← require node "variable name" (node.find? .identifier)
  let written ← match node.namedChild? 1 with
    | some value => fragments value
    | none => pure []
  let kept ← if expands then
      noted (Noted.each (Fragment.freeze (← environment) node.line) written)
    else pure written
  -- The expression reads the variables as they are before this assignment.
  let value := Fragment.expression (← environment) kept
  let stored := Fragment.toText kept
  if appends then
    let previous := (← environment).get? name.text
    append name.text stored settings.appendSeparator
    match previous with
    | none => return Zig.set name.text value
    | some previous =>
      return appendStatement name.text previous stored settings.appendSeparator value
  else
    assign name.text stored
    return Zig.set name.text value

def search (context : Context) (node : Node) : Render Text := do
  let path ← require node "path" (node.find? .path)
  let directory ← staticPath context path
  note (.searchAdded node.line directory)
  modify fun pass => { pass with searchDirs := pass.searchDirs ++ [Path.ofText directory] }
  return "// search path: ".toList ++ directory

end BmakeZig.Render
