import BmakeZig.Proofs.Tree.Shape
import BmakeZig.Render.Tree

/-! The plan of a tree, opened one node at a time: the part of a node is its rule applied to the
parts of its children, and the named parts are the parts of the named children. -/
namespace BmakeZig

variable {context : Context} {follow : Node → Render Text} {role : Role} {node : Node}

theorem Shape.isNamed (shape : Shape role node) : node.named = true := by
  induction shape <;> first | rfl | assumption

theorem Shape.expansionMode (shape : Shape .expansion node) : ∃ mode, node.kind = .expansion mode := by
  cases shape with
  | plain => exact ⟨_, rfl⟩
  | modified => exact ⟨_, rfl⟩

namespace Node

@[simp] theorem plans_eq_map (context : Context) (follow : Node → Render Text) (nodes : List Node) :
    plans context follow nodes = nodes.map (plan context follow) := by
  induction nodes with
  | nil => rfl
  | cons node rest ih => rw [plans, ih, List.map_cons]

@[simp] theorem plan_node (context : Context) (follow : Node → Render Text) (node : Node) :
    (node.plan context follow).node = node := by
  cases node
  rfl

theorem plan_text (context : Context) (follow : Node → Render Text) (node : Node) :
    (node.plan context follow).text =
      Render.node context follow node (node.children.map (plan context follow)) := by
  cases node
  simp only [plan, plans_eq_map]

theorem plan_clause (context : Context) (follow : Node → Render Text) (node : Node) :
    (node.plan context follow).clause =
      Render.clause node (node.children.map (plan context follow)) := by
  cases node
  simp only [plan, plans_eq_map]

end Node

namespace Render

theorem namedParts_plan (named : node.named = true) (parts : List Part) :
    namedParts (node.plan context follow :: parts) =
      node.plan context follow :: namedParts parts := by
  simp [namedParts, named]

theorem namedParts_token (line : Nat) (text : Text) (parts : List Part) :
    namedParts ((Node.token line text).plan context follow :: parts) = namedParts parts := by
  simp [namedParts, Node.token]

theorem namedParts_of_all {nodes : List Node} (named : ∀ node ∈ nodes, node.named = true)
    (parts : List Part) :
    namedParts (nodes.map (Node.plan context follow) ++ parts) =
      nodes.map (Node.plan context follow) ++ namedParts parts := by
  have all : ∀ part ∈ nodes.map (Node.plan context follow), part.node.named = true := by
    intro part member
    obtain ⟨node, inside, rfl⟩ := List.mem_map.1 member
    rw [Node.plan_node]
    exact named node inside
  rw [namedParts, List.filter_append, List.filter_eq_self.2 all, namedParts]

theorem namedParts_children (node : Node) (index : Nat) :
    (namedParts (node.children.map (Node.plan context follow)))[index]? =
      (node.namedChild? index).map (Node.plan context follow) := by
  simp only [namedParts, List.filter_map, Function.comp_def, Node.plan_node, List.getElem?_map]
  rfl

theorem assignment_target {kind : Kind} {line : Nat} {text : Text} {target : Node}
    (assigned : Shape .name target) (others : List Node) :
    Node.find? (.branch kind line text (target :: others)) .identifier = some target := by
  cases assigned
  rfl

theorem assignment_value {kind : Kind} {line : Nat} {text operator : Text} {target argument : Node}
    (assigned : Shape .name target) (valued : Shape (.phrase .value) argument) :
    Node.namedChild? (.branch kind line text [target, .token line operator, argument]) 1 =
      some argument := by
  simp [Node.namedChild?, Node.namedChildren, Node.branch, Node.token, valued.isNamed,
    assigned.isNamed]

@[simp] theorem require_some {α : Type} (node : Node) (expected : String) (found : α) :
    require node expected (some found) = pure found :=
  rfl

theorem writtenFragments_of_kind (other : ∀ mode, node.kind ≠ .expansion mode) :
    writtenFragments node =
      if node.children.isEmpty then pure (Fragment.split node.text) else collect node.children := by
  unfold writtenFragments
  split
  · next mode same => exact absurd same (other mode)
  · rfl

/-! The rules for nodes with parts, at the parts that their shapes have. -/

/-- The operand of a negation, in brackets if it would be torn apart. -/
def negand (operand : Kind × Text) : Text :=
  match operand.1 with
  | .and | .or => bracketed operand.2
  | _ => operand.2

theorem negation_plan {line : Nat} {text operator : Text} {operand : Node}
    (named : operand.named = true) :
    ((Node.branch .not line text [.token line operator, operand]).plan context follow).text = do
      let said ← (operand.plan context follow).text
      return '!' :: negand (operand.kind, said) := by
  rw [Node.plan_text]
  change negation _ [_, _] = _
  simp only [negation, namedParts_token, namedParts_plan named, List.getElem?_cons_zero, require_some,
    pure_bind, Node.plan_node]
  refine congrArg _ (funext fun said => ?_)
  cases operand.kind <;> rfl

theorem bothOperands_plan {kind : Kind} {line : Nat} {text operator : Text} {left right : Node}
    (named : left.named = true ∧ right.named = true) :
    bothOperands (.branch kind line text [left, .token line operator, right])
      ([left, .token line operator, right].map (Node.plan context follow)) = do
      let leftText ← (left.plan context follow).text
      let rightText ← (right.plan context follow).text
      return ((left.kind, leftText), (right.kind, rightText)) := by
  simp only [bothOperands, List.map, namedParts_plan named.1, namedParts_token,
    namedParts_plan named.2, List.getElem?_cons_zero, List.getElem?_cons_succ, require_some, pure_bind,
    Node.plan_node]

theorem diagnostic_plan {directive : Source.Directive} {line : Nat} {text : Text} {message : Node}
    (reports : directive.reports = true) :
    ∃ marker : Marker,
      ((Node.branch .diagnostic line text [.token line directive.spelling, message]).plan
        context follow).text = do
        let said ← (message.plan context follow).text
        return marker.call said := by
  have known : ∃ marker, Marker.ofDirective? directive.spelling = some marker := by
    cases directive <;> first | exact ⟨_, rfl⟩ | simp [Source.Directive.reports] at reports
  obtain ⟨marker, found⟩ := known
  refine ⟨marker, ?_⟩
  rw [Node.plan_text]
  change diagnostic _ [_, _] = _
  simp only [diagnostic, List.getElem?_cons_zero, List.getElem?_cons_succ, require_some, pure_bind,
    Node.plan_node, Node.token, diagnose, found]

/-- What a rule for the target does with its body. -/
def aimed (target : Node) (body : Text) : Render Text :=
  match target.kind with
  | .always => return body
  | .targetDecl => do
    modify fun pass => { pass with usesBuilder := true }
    return Zig.buildStep target.text body
  | _ => throw (unknown target)

theorem rule_plan {line bodyLine : Nat} {text colon bodyText : Text} {target : Node}
    {entries : List Node} (shape : Shape .target target) :
    ((Node.branch .rule line text
      [target, .token line colon, .branch .ruleBody bodyLine bodyText entries]).plan
        context follow).text = lines (entries.map (Node.plan context follow)) >>= aimed target := by
  have other : target.kind ≠ .ruleBody := by cases shape <;> simp [Node.leaf]
  have body : ((Node.branch .ruleBody bodyLine bodyText entries).plan context follow).text =
      lines (entries.map (Node.plan context follow)) := by
    rw [Node.plan_text]
    rfl
  have found : findPart? ([target, .token line colon,
      .branch .ruleBody bodyLine bodyText entries].map (Node.plan context follow)) .ruleBody =
      some ((Node.branch .ruleBody bodyLine bodyText entries).plan context follow) := by
    simp [findPart?, namedParts, shape.isNamed, other, Node.token, Node.branch]
  rw [Node.plan_text]
  change rule _ ([target, .token line colon, .branch .ruleBody bodyLine bodyText entries].map
    (Node.plan context follow)) = _
  simp only [rule, found, body]
  simp only [List.map_cons, namedParts_plan shape.isNamed, List.getElem?_cons_zero, require_some,
    pure_bind, Node.plan_node]
  rfl

/-- Marks and built-in names stand in front of the argument of a command line. -/
theorem command_front {line : Nat} {modifiers builtin : List Node} {child : Node}
    (modifying : ∀ modifier ∈ modifiers, ∃ mark, modifier = .leaf .commandMod line mark)
    (building : builtin = [] ∨ ∃ word, Text.isName word = true ∧
      builtin = [.leaf .builtinCommand line ('~' :: word)])
    (member : child ∈ modifiers ++ builtin) :
    child.kind = .commandMod ∨
      (child.kind = .builtinCommand ∧ ∃ word, Text.isName word = true ∧ child.text = '~' :: word) := by
  rcases List.mem_append.1 member with marks | words
  · obtain ⟨mark, rfl⟩ := modifying child marks
    exact Or.inl rfl
  · rcases building with rfl | ⟨word, named, rfl⟩
    · cases words
    · obtain rfl := List.mem_singleton.1 words
      exact Or.inr ⟨rfl, word, named, rfl⟩

/-- No mark and no built-in is a command, so the argument is the command that is found. -/
theorem command_argument {line : Nat} {modifiers builtin : List Node} {argument : Node}
    (modifying : ∀ modifier ∈ modifiers, ∃ mark, modifier = .leaf .commandMod line mark)
    (building : builtin = [] ∨ ∃ word, Text.isName word = true ∧
      builtin = [.leaf .builtinCommand line ('~' :: word)])
    (inner : Shape (.phrase .command) argument) :
    findPart? ((modifiers ++ builtin ++ [argument]).map (Node.plan context follow)) .command =
      some (argument.plan context follow) := by
  have kind : argument.kind = .command := by
    cases inner
    rfl
  have before : (namedParts ((modifiers ++ builtin).map (Node.plan context follow))).find?
      (fun part => part.node.kind = .command) = none := by
    apply List.find?_eq_none.2
    intro part inside
    obtain ⟨child, member, rfl⟩ := List.mem_map.1 (List.mem_filter.1 inside).1
    rcases command_front modifying building member with other | ⟨other, _⟩ <;> simp [other]
  rw [findPart?, List.map_append, namedParts, List.filter_append, List.find?_append]
  rw [namedParts] at before
  rw [before]
  simp [kind, inner.isNamed]

theorem conditional_plan {directive : Source.Directive} {line last : Nat} {text ending : Text}
    {test inner : Node} {branches : List Node}
    (named : test.named = true ∧ inner.named = true ∧ ∀ branch ∈ branches, branch.named = true) :
    ((Node.branch .conditional line text
      (.token line directive.spelling :: test :: inner :: branches ++ [.token last ending])).plan
        context follow).text = do
      let condition ← Render.test directive.spelling (test.plan context follow)
      let body ← (inner.plan context follow).text
      let more ← clauses (.branch .conditional line text
        (.token line directive.spelling :: test :: inner :: branches ++ [.token last ending]))
        (branches.map (Node.plan context follow))
      return guarded condition body ++ more := by
  rw [Node.plan_text]
  change conditional _ (_ :: _ :: _ :: (branches ++ [Node.token last ending]).map
    (Node.plan context follow)) = _
  have keyed : ∀ parts : List Part, keyword
      ((Node.token line directive.spelling).plan context follow :: parts) = directive.spelling := by
    intro parts
    simp [keyword, Node.token]
  have rest : namedParts ([(Node.token last ending).plan context follow]) = [] := namedParts_token ..
  simp only [conditional, namedParts_token, namedParts_plan named.1, namedParts_plan named.2.1,
    List.getElem?_cons_zero, List.getElem?_cons_succ, require_some, pure_bind, keyed, List.drop,
    List.map_append, namedParts_of_all named.2.2, List.map_cons, List.map_nil, rest, List.append_nil]

theorem elseIf_plan {line : Nat} {text word : Text} {test inner : Node}
    (named : test.named = true ∧ inner.named = true) (parent : Node) :
    ((Node.branch .elifClause line text [.token line word, test, inner]).plan
      context follow).clause parent = do
      let condition ← (test.plan context follow).text
      let body ← (inner.plan context follow).text
      return " else ".toList ++ guarded condition body := by
  rw [Node.plan_clause]
  change clause _ [_, _, _] _ = _
  simp only [clause, namedParts_token, namedParts_plan named.1, namedParts_plan named.2,
    List.getElem?_cons_zero, List.getElem?_cons_succ, require_some, pure_bind, Node.branch]

theorem otherwise_plan {line : Nat} {text word : Text} {inner : Node} (named : inner.named = true)
    (parent : Node) :
    ((Node.branch .elseClause line text [.token line word, inner]).plan context follow).clause
      parent = do
      let body ← (inner.plan context follow).text
      return " else ".toList ++ Zig.block body := by
  rw [Node.plan_clause]
  change clause _ [_, _] _ = _
  simp only [clause, namedParts_token, namedParts_plan named, List.getElem?_cons_zero, require_some,
    pure_bind, Node.branch]

end Render

end BmakeZig
