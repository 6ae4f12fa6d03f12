import BmakeZig.Render.Branch
import BmakeZig.Render.Inclusion

/-! Whole trees. `plan` goes once through a tree and gives every node its rule; `render` also follows
the included units, at most as deep as the settings allow. -/
namespace BmakeZig

namespace Render

/-- The rule for a node, given its parts. `follow` renders the unit that a node includes. -/
def node (context : Context) (follow : Node → Render Text) (node : Node) (parts : List Part) :
    Render Text :=
  match node.kind with
  | .sourceFile | .body | .ruleBody => lines parts
  | .conditional => conditional node parts
  | .diagnostic => diagnostic node parts
  | .comment => return comment node.text
  | .identifier => return node.text
  | .string => return Zig.literal (unquote node.text)
  | .not => negation node parts
  | .and => conjunction node parts
  | .or => disjunction node parts
  | .eq => equality node parts
  | .isDefined => isDefined node
  | .assignment appends expands => assignment context.settings node appends expands
  | .expansion _ | .value | .literal | .message | .command | .path => value node
  | .rule => rule node parts
  | .buildCommand => buildCommand node parts
  | .inclusion => follow node
  | .search => search context node
  | .undef => undef node
  | .error => return Zig.unreadSpan node.text node.line
  -- Clauses, targets and modifiers are rendered by the node they belong to, never by themselves.
  | _ => if node.named then throw (unknown node) else verbatim node

end Render

mutual

def Node.plan (context : Context) (follow : Node → Render Text) : Node → Part
  | ⟨kind, named, line, text, children⟩ =>
    let node : Node := ⟨kind, named, line, text, children⟩
    let parts := plans context follow children
    ⟨node, Render.node context follow node parts, Render.clause node parts⟩

def Node.plans (context : Context) (follow : Node → Render Text) : List Node → List Part
  | [] => []
  | node :: rest => node.plan context follow :: Node.plans context follow rest

end

/-- The text of a tree, with units included up to `depth` deep below it. -/
def Node.render : Nat → Context → Node → Render Text
  | 0, context, node => (node.plan context (Render.inclusion none context)).text
  | depth + 1, context, node =>
    (node.plan context (Render.inclusion (some (Node.render depth)) context)).text

end BmakeZig
