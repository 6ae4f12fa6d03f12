import BmakeZig.Proofs.Render.Plan

/-! The rules in two phases. A node has some of its children rendered one after the other, and then
makes its own text out of theirs. What it changes itself it changes in the second phase, so the first
one is the same for every node, and each rule is its `rendered` children followed by its `finish`. -/
namespace BmakeZig

namespace Node

/-- The keyword a conditional starts with. -/
def keyword (node : Node) : Text :=
  match node.children.find? (!·.named) with
  | some child => child.text
  | none => "%if".toList

/-- Whether the test of a conditional is a bare name, which is not rendered. -/
def testsName (node : Node) : Bool :=
  node.keyword = "%ifdef".toList || node.keyword = "%ifndef".toList

/-- What the clauses of a conditional have rendered, up to the first that is not a whole clause. -/
def clauseChildren : List Node → List Node
  | [] => []
  | clause :: rest =>
    match clause.kind with
    | .elifClause =>
      match clause.namedChild? 0, clause.namedChild? 1 with
      | some test, some body => test :: body :: clauseChildren rest
      | _, _ => []
    | .elseClause =>
      match clause.namedChild? 0 with
      | some body => body :: clauseChildren rest
      | none => []
    | _ => []

/-- The first two named children, or nothing if one of them is missing. -/
def operands (node : Node) : List Node :=
  match node.namedChild? 0, node.namedChild? 1 with
  | some left, some right => [left, right]
  | _, _ => []

/-- What a conditional has rendered: its test, unless that is a bare name, its body and its clauses. -/
def conditionalChildren (node : Node) : List Node :=
  match node.namedChild? 0, node.namedChild? 1 with
  | some test, some body =>
    (if node.testsName then [body] else [test, body]) ++ clauseChildren (node.namedChildren.drop 2)
  | _, _ => []

/-- What a rule has rendered: its body, once there is a target. -/
def ruleChildren (node : Node) : List Node :=
  match node.namedChild? 0 with
  | some _ => (node.find? .ruleBody).toList
  | none => []

/-- The nodes that the rule of a node has rendered, in order. -/
def rendered (node : Node) : List Node :=
  match node.kind with
  | .sourceFile | .body | .ruleBody => node.children
  | .conditional => node.conditionalChildren
  | .diagnostic => (node.child? 1).toList
  | .not => (node.namedChild? 0).toList
  | .and | .or | .eq => node.operands
  | .rule => node.ruleChildren
  | .buildCommand => (node.find? .command).toList
  | _ => []

end Node

namespace Render

/-- The test of a conditional, and the texts it leaves. -/
def closeTest (node test : Node) (said : List Text) : Text × List Text :=
  if node.keyword = "%ifdef".toList then (Zig.isSet test.text, said)
  else if node.keyword = "%ifndef".toList then (Zig.isUnset test.text, said)
  else if node.keyword = "%iffile".toList then (Zig.fileExists (said.headD []), said.tail)
  else if node.keyword = "%ifnofile".toList then ('!' :: Zig.fileExists (said.headD []), said.tail)
  else (said.headD [], said.tail)

def closeClauses (node : Node) : List Node → List Text → Render Text
  | [], _ => return []
  | clause :: rest, said =>
    match clause.kind with
    | .elifClause => do
      let _ ← require clause "condition" (clause.namedChild? 0)
      let _ ← require clause "body" (clause.namedChild? 1)
      let more ← closeClauses node rest (said.drop 2)
      return " else ".toList ++ guarded (said.headD []) (said.tail.headD []) ++ more
    | .elseClause => do
      let _ ← require clause "body" (clause.namedChild? 0)
      let more ← closeClauses node rest said.tail
      return " else ".toList ++ Zig.block (said.headD []) ++ more
    | _ => throw (malformed node "elif or else clause")

def closeConditional (node : Node) (said : List Text) : Render Text := do
  let test ← require node "condition" (node.namedChild? 0)
  let _ ← require node "body" (node.namedChild? 1)
  let tested := closeTest node test said
  let more ← closeClauses node (node.namedChildren.drop 2) tested.2.tail
  return guarded tested.1 (tested.2.headD []) ++ more

def closeNegation (node : Node) (said : Text) : Render Text := do
  let operand ← require node "operand" (node.namedChild? 0)
  return '!' :: negand (operand.kind, said)

/-- Joins the texts of both operands, each with its kind. -/
def closeOperands (node : Node) (join : Kind × Text → Kind × Text → Text) (said : List Text) :
    Render Text := do
  let left ← require node "left operand" (node.namedChild? 0)
  let right ← require node "right operand" (node.namedChild? 1)
  return join (left.kind, said.headD []) (right.kind, said.tail.headD [])

def closeDiagnostic (node : Node) (message : Text) : Render Text := do
  let marker ← require node "marker" (node.child? 0)
  match diagnose marker.text message node.line with
  | .ok call => return call
  | .error fault => throw fault

def closeRule (node : Node) (body : Text) : Render Text := do
  let target ← require node "target" (node.namedChild? 0)
  aimed target body

def closeCommand (node : Node) (command : Text) : Render Text :=
  match node.find? .builtinCommand with
  | none =>
    let modifiers :=
      (node.namedChildren.filter fun child => child.kind = .commandMod).flatMap (·.text)
    return plainCommand modifiers command
  | some name =>
    match builtin? name.text command with
    | some call => return call
    | none => do
      warn node.line ("unsupported builtin command '".toList ++ name.text ++ "'".toList)
      return "// ".toList ++ node.text

end Render

/-- What the rule of a node does with the texts of the nodes it had rendered. A rule that has none
rendered is its own second phase; what a node includes is left out. -/
def Node.finish (context : Context) (node : Node) (said : List Text) : Render Text :=
  match node.kind with
  | .sourceFile | .body | .ruleBody => return Text.joinWith ['\n'] said
  | .conditional => Render.closeConditional node said
  | .diagnostic => Render.closeDiagnostic node (said.headD (Zig.literal []))
  | .not => Render.closeNegation node (said.headD [])
  | .and =>
    Render.closeOperands node
      (fun left right => Render.conjunct left ++ " and ".toList ++ Render.conjunct right) said
  | .or => Render.closeOperands node (fun left right => left.2 ++ " or ".toList ++ right.2) said
  | .eq => Render.closeOperands node (fun left right => Zig.equal left.2 right.2) said
  | .rule => Render.closeRule node (said.headD [])
  | .buildCommand => Render.closeCommand node (said.headD (Zig.literal []))
  | _ => Render.node context (fun _ => return []) node []

namespace Render

variable {context : Context} {follow : Node → Render Text} {node : Node}

@[simp] theorem texts_nil : texts [] = pure [] :=
  rfl

theorem texts_pair (first second : Part) (parts : List Part) :
    texts (first :: second :: parts) = do
      let one ← first.text
      let two ← second.text
      let more ← texts parts
      return one :: two :: more := by
  simp only [texts, bind_assoc, pure_bind]

theorem throw_bind {α β : Type} (fault : Fault) (next : α → Render β) :
    (throw fault : Render α) >>= next = throw fault :=
  rfl

@[simp] theorem require_none {α : Type} (node : Node) (expected : String) :
    (require node expected none : Render α) = throw (malformed node expected) :=
  rfl

theorem keyword_children (node : Node) :
    keyword (node.children.map (Node.plan context follow)) = node.keyword := by
  simp only [keyword, Node.keyword, List.find?_map, Function.comp_def, Node.plan_node]
  cases node.children.find? (!·.named) <;> simp

theorem findPart_children (node : Node) (kind : Kind) :
    findPart? (node.children.map (Node.plan context follow)) kind =
      (node.find? kind).map (Node.plan context follow) := by
  simp only [findPart?, namedParts, List.filter_map, List.find?_map, Function.comp_def,
    Node.plan_node]
  rfl

theorem namedParts_drop (node : Node) (count : Nat) :
    (namedParts (node.children.map (Node.plan context follow))).drop count =
      (node.namedChildren.drop count).map (Node.plan context follow) := by
  simp only [namedParts, List.filter_map, Function.comp_def, Node.plan_node, List.map_drop]
  rfl

theorem clauses_eq (parent : Node) (branches : List Node) :
    clauses parent (branches.map (Node.plan context follow)) =
      texts ((Node.clauseChildren branches).map (Node.plan context follow)) >>=
        closeClauses parent branches := by
  induction branches with
  | nil => rfl
  | cons branch rest ih =>
    rw [List.map_cons, clauses, ih, Node.plan_clause, Node.clauseChildren]
    simp only [clause, namedParts_children]
    cases kind : branch.kind
    case elifClause =>
      cases first : branch.namedChild? 0 with
      | none => simp [closeClauses, kind, first, throw_bind]
      | some test =>
        cases second : branch.namedChild? 1 with
        | none => simp [closeClauses, kind, first, second, throw_bind]
        | some body =>
          simp [texts_pair, closeClauses, kind, first, second]
    case elseClause =>
      cases first : branch.namedChild? 0 with
      | none => simp [closeClauses, kind, first, throw_bind]
      | some body => simp [texts, closeClauses, kind, first]
    all_goals simp [closeClauses, kind, throw_bind]

/-- The test runs in front of the rest, or is not run at all. -/
theorem test_eq (node test body : Node) (branches : List Node)
    (rest : Text × List Text → Render Text) :
    (Render.test node.keyword (test.plan context follow) >>= fun tested =>
      (body.plan context follow).text >>= fun inner =>
        texts (branches.map (Node.plan context follow)) >>= fun more =>
          rest (tested, inner :: more)) =
      texts (((if node.testsName then [body] else [test, body]) ++ branches).map
        (Node.plan context follow)) >>= fun said => rest (closeTest node test said) := by
  unfold Node.testsName closeTest Render.test
  by_cases defined : node.keyword = "%ifdef".toList
  · simp only [if_pos defined, decide_eq_true defined, Bool.true_or, if_true, pure_bind, texts,
      List.cons_append, List.nil_append, List.map_cons, bind_assoc, Node.plan_node]
  by_cases undefined : node.keyword = "%ifndef".toList
  · simp only [if_neg defined, if_pos undefined, decide_eq_true undefined, Bool.or_true, if_true,
      pure_bind, texts, List.cons_append, List.nil_append, List.map_cons, bind_assoc, Node.plan_node]
  have unnamed : (decide (node.keyword = "%ifdef".toList) ||
      decide (node.keyword = "%ifndef".toList)) = false := by
    rw [decide_eq_false defined, decide_eq_false undefined]
    rfl
  simp only [unnamed, Bool.false_eq_true, if_false, if_neg defined, if_neg undefined,
    List.cons_append, List.nil_append, List.map_cons, texts_pair, bind_assoc]
  split
  · simp only [pure_bind, bind_assoc, List.headD_cons, List.tail_cons]
  · split <;> simp only [pure_bind, bind_assoc, List.headD_cons, List.tail_cons]

theorem conditional_eq (node : Node) :
    conditional node (node.children.map (Node.plan context follow)) =
      texts (node.conditionalChildren.map (Node.plan context follow)) >>= closeConditional node := by
  simp only [conditional, namedParts_children, keyword_children, namedParts_drop, clauses_eq,
    Node.conditionalChildren]
  cases first : node.namedChild? 0 with
  | none => simp [closeConditional, first, throw_bind]
  | some test =>
    cases second : node.namedChild? 1 with
    | none => simp [closeConditional, first, second, throw_bind]
    | some body =>
      have run := @test_eq context follow node test body
        (Node.clauseChildren (node.namedChildren.drop 2)) fun tested => do
          let more ← closeClauses node (node.namedChildren.drop 2) tested.2.tail
          return guarded tested.1 (tested.2.headD []) ++ more
      have closes : closeConditional node = fun said => do
          let more ← closeClauses node (node.namedChildren.drop 2) (closeTest node test said).2.tail
          return guarded (closeTest node test said).1 ((closeTest node test said).2.headD []) ++
            more := by
        funext said
        simp only [closeConditional, first, second, require_some, pure_bind]
      rw [closes, ← run]
      simp only [Option.map_some, require_some, pure_bind, bind_assoc, List.tail_cons, List.headD_cons]

theorem bothOperands_eq (node : Node) (join : Kind × Text → Kind × Text → Text) :
    (bothOperands node (node.children.map (Node.plan context follow)) >>= fun both =>
      pure (join both.1 both.2)) =
      texts (node.operands.map (Node.plan context follow)) >>= closeOperands node join := by
  simp only [bothOperands, namedParts_children, Node.operands]
  cases first : node.namedChild? 0 with
  | none => simp only [closeOperands, first, Option.map_none, require_none, throw_bind, List.map_nil,
      texts_nil, pure_bind]
  | some left =>
    cases second : node.namedChild? 1 with
    | none => simp only [closeOperands, first, second, Option.map_some, Option.map_none, require_some,
        require_none, throw_bind, List.map_nil, texts_nil, pure_bind]
    | some right => simp [texts, closeOperands, first, second]

theorem negation_eq (node : Node) :
    negation node (node.children.map (Node.plan context follow)) =
      texts ((node.namedChild? 0).toList.map (Node.plan context follow)) >>= fun said =>
        closeNegation node (said.headD []) := by
  simp only [negation, namedParts_children, closeNegation]
  cases first : node.namedChild? 0 with
  | none => rfl
  | some operand =>
    simp only [Option.map_some, require_some, pure_bind, Option.toList, List.map, texts, bind_assoc,
      Node.plan_node, List.headD]
    refine congrArg _ (funext fun said => ?_)
    cases operand.kind <;> rfl

theorem diagnostic_eq (node : Node) :
    diagnostic node (node.children.map (Node.plan context follow)) =
      texts ((node.child? 1).toList.map (Node.plan context follow)) >>= fun said =>
        closeDiagnostic node (said.headD (Zig.literal [])) := by
  simp only [diagnostic, closeDiagnostic, Node.child?, List.getElem?_map]
  rcases node.children with _ | ⟨marker, _ | ⟨message, rest⟩⟩
  · rfl
  · simp only [List.getElem?_cons_zero, Option.map_some, require_some, pure_bind, Node.plan_node]
    rfl
  · simp only [List.getElem?_cons_zero, List.getElem?_cons_succ, Option.map_some, require_some,
      pure_bind, Node.plan_node, Option.toList, List.map, texts, bind_assoc]
    rfl

theorem rule_eq (node : Node) :
    rule node (node.children.map (Node.plan context follow)) =
      texts (node.ruleChildren.map (Node.plan context follow)) >>= fun said =>
        closeRule node (said.headD []) := by
  simp only [rule, namedParts_children, findPart_children, Node.ruleChildren, closeRule]
  cases node.namedChild? 0 with
  | none => rfl
  | some target =>
    simp only [Option.map_some, require_some, pure_bind, Node.plan_node]
    cases node.find? .ruleBody with
    | none => rfl
    | some body =>
      simp only [Option.map_some, Option.toList, List.map, texts, bind_assoc, pure_bind]
      rfl

theorem buildCommand_eq (node : Node) :
    buildCommand node (node.children.map (Node.plan context follow)) =
      texts ((node.find? .command).toList.map (Node.plan context follow)) >>= fun said =>
        closeCommand node (said.headD (Zig.literal [])) := by
  simp only [buildCommand, findPart_children, closeCommand]
  cases node.find? .command with
  | none => rfl
  | some command =>
    simp only [Option.map_some, Option.toList, List.map, texts, bind_assoc, pure_bind]
    rfl

end Render

/-- A rule renders what it has to render and goes on from there. -/
theorem Node.plan_text_eq_finish {context : Context} {follow : Node → Render Text} {node : Node}
    (other : node.kind ≠ .inclusion) :
    (node.plan context follow).text =
      Render.texts (node.rendered.map (Node.plan context follow)) >>= node.finish context := by
  rw [plan_text]
  unfold rendered finish
  cases kind : node.kind with
  | inclusion => exact absurd kind other
  | sourceFile | body | ruleBody => simp only [Render.node, kind]; rfl
  | conditional => simp only [Render.node, kind, Render.conditional_eq]
  | diagnostic => simp only [Render.node, kind, Render.diagnostic_eq]
  | not => simp only [Render.node, kind, Render.negation_eq]
  | and =>
    simp only [Render.node, kind]
    exact Render.bothOperands_eq node fun left right =>
      Render.conjunct left ++ " and ".toList ++ Render.conjunct right
  | or =>
    simp only [Render.node, kind]
    exact Render.bothOperands_eq node fun left right => left.2 ++ " or ".toList ++ right.2
  | eq =>
    simp only [Render.node, kind]
    exact Render.bothOperands_eq node fun left right => Zig.equal left.2 right.2
  | rule => simp only [Render.node, kind, Render.rule_eq]
  | buildCommand => simp only [Render.node, kind, Render.buildCommand_eq]
  | _ => simp only [Render.node, kind, List.map_nil, Render.texts_nil, pure_bind]

end BmakeZig
