import BmakeZig.Environment.Basic
import BmakeZig.Interchange.Form
import BmakeZig.Tree.Node
import BmakeZig.Value.Fragment

/-! Forms of kinds, modes, fragments and environments. -/
namespace BmakeZig

namespace Mode

def label : Mode → String
  | .recursive => "Recursive"
  | .stripping => "RecursiveStripSlash"
  | .immediate => "Immediate"

def toForm (mode : Mode) : Form :=
  Form.label mode.label

def ofForm? (form : Form) : Option Mode := do
  let label ← form.bare?
  [recursive, stripping, immediate].find? fun mode => mode.label.toList = label

end Mode

namespace Kind

/-- The label of a kind; the kinds without a name here share one. -/
def label : Kind → String
  | .sourceFile => "SourceFile"
  | .body => "Body"
  | .conditional => "If"
  | .elifClause => "ElifClause"
  | .elseClause => "ElseClause"
  | .diagnostic => "Diagnostic"
  | .comment => "Comment"
  | .identifier => "Identifier"
  | .string => "String"
  | .not => "Not"
  | .and => "And"
  | .or => "Or"
  | .eq => "Eq"
  | .isDefined => "IsDefined"
  | .assignment false false => "Assign"
  | .assignment true false => "AppendAssign"
  | .assignment false true => "ExpandingAssign"
  | .assignment true true => "AppendExpandingAssign"
  | .expansion .recursive => "RecursiveExpand"
  | .expansion .stripping => "RecursiveExpandStripTrailingSlash"
  | .expansion .immediate => "NonRecursiveExpand"
  | .expansionMod => "ExpansionMod"
  | .value => "Value"
  | .literal => "Literal"
  | .message => "Message"
  | .rule => "Rule"
  | .always => "Always"
  | .targetDecl => "TargetDecl"
  | .ruleBody => "RuleBody"
  | .buildCommand => "BuildCommand"
  | .commandMod => "CommandMod"
  | .builtinCommand => "BuiltinCommand"
  | .command => "Command"
  | .inclusion => "Include"
  | .search => "Search"
  | .undef => "Undef"
  | .path => "Path"
  | .error => "Error"
  | .token => "Token"
  | .other _ => "Other"

def toForm : Kind → Form
  | .other name => Form.tagged "Other" (.text name)
  | kind => Form.label kind.label

def ofForm? (form : Form) : Option Kind :=
  match form.alternative? with
  | none => none
  | some (label, content) =>
    if label = "Other".toList then (content.bind Form.text?).map .other
    else do
      let label ← form.bare?
      known.find? fun kind => kind.label.toList = label

end Kind

namespace Fragment

def toForm : Fragment → Form
  | .literal text => Form.tagged "Literal" (.text text)
  | .reference name mode =>
    Form.tagged "Reference" (Form.record [("name", .text name), ("expansion", mode.toForm)])

def ofForm? (form : Form) : Option Fragment := do
  let (label, content) ← form.alternative?
  if label = "Literal".toList then
    return .literal (← (← content).text?)
  else if label = "Reference".toList then
    match ← Form.carried? ["name", "expansion"] content with
    | [some name, some mode] => return .reference (← name.text?) (← Mode.ofForm? mode)
    | _ => none
  else none

end Fragment

namespace Environment

def toForm (environment : Environment) : Form :=
  Form.record
    [("values", .fields (environment.values.map fun entry => (entry.1, .text entry.2))),
      ("bound", Form.ofTexts environment.bound)]

def ofForm? (form : Form) : Option Environment := do
  match ← form.record? ["values", "bound"] with
  | [some values, some bound] =>
    return ⟨Table.ofPairs (← values.table?), Text.sortNames (← bound.texts?)⟩
  | _ => none

end Environment

end BmakeZig
