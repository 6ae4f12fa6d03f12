import BmakeZig.Compile
import BmakeZig.Proofs.Render.Change

/-! Unknown nodes. A rule looks at some of the nodes below its own and at no others: those it has
rendered, and those whose kind it asks for. An unknown node is fatal in the first two places, and
makes no difference in any other. -/
namespace BmakeZig

/-- Any production without a rule, taken for a keyword. -/
def Kind.hush : Kind → Kind
  | .other _ => .token
  | kind => kind

namespace Node

/-- A named node of a production that has no rule. -/
def isUnknown (node : Node) : Bool :=
  node.named && match node.kind with
    | .other _ => true
    | _ => false

theorem isUnknown_iff {node : Node} :
    node.isUnknown = true ↔ node.named = true ∧ ∃ name, node.kind = .other name := by
  unfold isUnknown
  cases node.kind <;> simp

/-- The nodes of which the value of a node is put together. -/
def pieces (node : Node) : List Node :=
  match node.kind with
  | .expansion _ => []
  | _ => node.children

/-- The nodes whose kinds a rule asks for, besides those that it has rendered. -/
def inspected (node : Node) : List Node :=
  match node.kind with
  | .conditional => node.namedChildren.drop 2
  | .rule => (node.namedChild? 0).toList
  | .assignment .. => (node.namedChild? 1).toList.flatMap pieces
  | .expansion _ | .value | .literal | .message | .command | .path => node.pieces
  | .inclusion | .search => (node.find? .path).toList.flatMap pieces
  | _ => []

/-- Rendering a tree looks at a node of it. -/
inductive Heeds : Node → Node → Prop where
  | self (node : Node) : Heeds node node
  | rendered {node child inner : Node} (member : child ∈ node.rendered) (below : Heeds child inner) :
      Heeds node inner
  | inspected {node child : Node} (member : child ∈ node.inspected) : Heeds node child

mutual

/-- The tree with its unknown nodes taken for keywords. -/
def hush : Node → Node
  | ⟨kind, named, line, text, children⟩ =>
    ⟨if named then kind.hush else kind, named, line, text, hushAll children⟩

def hushAll : List Node → List Node
  | [] => []
  | node :: rest => node.hush :: hushAll rest

end

end Node

/-! A rule that has looked at an unknown node fails. -/

namespace Render

variable {context : Context} {node child : Node} {pass after : Pass} {text : Text}

theorem pieces_of_plain (plain : ∀ mode, node.kind ≠ .expansion mode) : node.pieces = node.children := by
  unfold Node.pieces
  split
  · next mode kind => exact absurd kind (plain mode)
  · rfl

theorem known_of_childFragments {found : List Fragment}
    (ran : childFragments child pass = .ok found after) : child.isUnknown = false := by
  by_contra unknown
  obtain ⟨named, name, kind⟩ := Node.isUnknown_iff.1 (Bool.not_eq_false _ ▸ unknown)
  simp only [childFragments, kind, named, if_true] at ran
  cases ran

theorem known_of_collect {nodes : List Node} {found : List Fragment}
    (ran : collect nodes pass = .ok found after) : ∀ child ∈ nodes, child.isUnknown = false := by
  induction nodes generalizing pass found after with
  | nil => simp
  | cons first rest ih =>
    obtain ⟨one, middle, own, others⟩ := of_bind_ok ran
    obtain ⟨more, last, later, _⟩ := of_bind_ok others
    exact List.forall_mem_cons.2 ⟨known_of_childFragments own, ih later⟩

theorem known_of_writtenFragments {found : List Fragment}
    (ran : writtenFragments node pass = .ok found after) :
    ∀ child ∈ node.pieces, child.isUnknown = false := by
  by_cases expands : ∃ mode, node.kind = .expansion mode
  · obtain ⟨mode, kind⟩ := expands
    simp [Node.pieces, kind]
  · have plain : ∀ mode, node.kind ≠ .expansion mode := fun mode same => expands ⟨mode, same⟩
    rw [pieces_of_plain plain]
    rw [writtenFragments_of_kind plain] at ran
    split at ran
    · next empty => simp [List.isEmpty_iff.1 empty]
    · exact known_of_collect ran

theorem known_of_fragments {found : List Fragment} (ran : fragments node pass = .ok found after) :
    ∀ child ∈ node.pieces, child.isUnknown = false := by
  obtain ⟨written, middle, first, _⟩ := of_bind_ok ran
  exact known_of_writtenFragments first

theorem known_of_value (ran : value node pass = .ok text after) :
    ∀ child ∈ node.pieces, child.isUnknown = false := by
  obtain ⟨found, middle, first, _⟩ := of_bind_ok ran
  exact known_of_fragments first

/-- The path of a node that has one. -/
theorem known_of_path {β : Type} {next : Text → Render β} {result : β}
    (ran : (require node "path" (node.find? .path) >>= fun path => staticPath context path >>= next)
      pass = .ok result after) :
    ∀ child ∈ (node.find? .path).toList.flatMap Node.pieces, child.isUnknown = false := by
  obtain ⟨path, middle, required, ran⟩ := of_bind_ok ran
  obtain ⟨requested, last, static, _⟩ := of_bind_ok ran
  obtain ⟨found, _, first, _⟩ := of_bind_ok static
  obtain ⟨named, rfl⟩ := of_require required
  simpa [named] using known_of_fragments first

theorem known_of_assignment {settings : Settings} {appends expands : Bool}
    (ran : assignment settings node appends expands pass = .ok text after) :
    ∀ child ∈ (node.namedChild? 1).toList.flatMap Node.pieces, child.isUnknown = false := by
  rw [assignment_eq] at ran
  obtain ⟨name, middle, _, ran⟩ := of_bind_ok ran
  obtain ⟨written, last, first, _⟩ := of_bind_ok ran
  unfold valueFragments at first
  cases valued : node.namedChild? 1 with
  | none => simp
  | some value =>
    simp only [valued] at first
    simpa using known_of_fragments first

theorem known_of_closeClauses {branches : List Node} {said : List Text}
    (ran : closeClauses node branches said pass = .ok text after) :
    ∀ branch ∈ branches, branch.isUnknown = false := by
  induction branches generalizing said pass text after with
  | nil => simp
  | cons branch rest ih =>
    rw [List.forall_mem_cons]
    unfold closeClauses at ran
    cases kind : branch.kind
    case elifClause =>
      simp only [kind] at ran
      obtain ⟨_, _, _, ran⟩ := of_bind_ok ran
      obtain ⟨_, _, _, ran⟩ := of_bind_ok ran
      obtain ⟨_, _, later, _⟩ := of_bind_ok ran
      exact ⟨by simp [Node.isUnknown, kind], ih later⟩
    case elseClause =>
      simp only [kind] at ran
      obtain ⟨_, _, _, ran⟩ := of_bind_ok ran
      obtain ⟨_, _, later, _⟩ := of_bind_ok ran
      exact ⟨by simp [Node.isUnknown, kind], ih later⟩
    all_goals
      simp only [kind] at ran
      cases ran

theorem known_of_closeConditional {said : List Text}
    (ran : closeConditional node said pass = .ok text after) :
    ∀ branch ∈ node.namedChildren.drop 2, branch.isUnknown = false := by
  obtain ⟨_, _, _, ran⟩ := of_bind_ok ran
  obtain ⟨_, _, _, ran⟩ := of_bind_ok ran
  obtain ⟨_, _, branches, _⟩ := of_bind_ok ran
  exact known_of_closeClauses branches

theorem known_of_closeRule {body : Text} (ran : closeRule node body pass = .ok text after) :
    ∀ target ∈ (node.namedChild? 0).toList, target.isUnknown = false := by
  obtain ⟨first, middle, required, ran⟩ := of_bind_ok ran
  obtain ⟨named, rfl⟩ := of_require required
  intro target member
  rw [named, Option.toList_some, List.mem_singleton] at member
  subst member
  by_contra unknown
  obtain ⟨_, name, kind⟩ := Node.isUnknown_iff.1 (Bool.not_eq_false _ ▸ unknown)
  simp only [aimed, kind] at ran
  cases ran

theorem known_of_finish {said : List Text} (other : node.kind ≠ .inclusion)
    (ran : node.finish context said pass = .ok text after) :
    ∀ child ∈ node.inspected, child.isUnknown = false := by
  unfold Node.finish at ran
  unfold Node.inspected
  cases kind : node.kind with
  | inclusion => exact absurd kind other
  | conditional =>
    simp only [kind] at ran
    exact known_of_closeConditional ran
  | rule =>
    simp only [kind] at ran
    exact known_of_closeRule ran
  | assignment appends expands =>
    simp only [kind, Render.node] at ran
    exact known_of_assignment ran
  | search =>
    simp only [kind, Render.node] at ran
    exact known_of_path ran
  | expansion | value | literal | message | command | path =>
    simp only [kind, Render.node] at ran
    exact known_of_value ran
  | _ => simp

end Render

namespace Moment

variable {moment : Moment} {text : Text} {after : Pass}

theorem known_of_run (ran : moment.run = .ok text after) :
    moment.node.isUnknown = false ∧ ∀ child ∈ moment.node.inspected, child.isUnknown = false := by
  rcases of_run_ok ran with ⟨other, said, middle, _, second⟩ | ⟨includes, _, _, _, _, located, _⟩
  · refine ⟨?_, Render.known_of_finish other second⟩
    by_contra unknown
    obtain ⟨named, name, kind⟩ := Node.isUnknown_iff.1 (Bool.not_eq_false _ ▸ unknown)
    simp only [Node.finish, Render.node, kind, named, if_true] at second
    cases second
  · constructor
    · simp [Node.isUnknown, includes]
    · simp only [Node.inspected, includes]
      exact Render.known_of_path located

/-- Induction on the way from the tree to the node: where a child fails whatever the pass, so does
its parent. -/
theorem known_of_heeds {tree node : Node} (heeds : tree.Heeds node) {context : Context} {pass : Pass}
    (ran : (Moment.mk context tree pass).run = .ok text after) : node.isUnknown = false := by
  induction heeds generalizing pass text after with
  | self node => exact (known_of_run ran).1
  | inspected member => exact (known_of_run ran).2 _ member
  | @rendered node child inner member below ih =>
    rcases of_run_ok ran with ⟨_, said, middle, first, _⟩ | ⟨includes, _⟩
    · obtain ⟨before, later, split⟩ := List.append_of_mem member
      rw [split] at first
      obtain ⟨_, _, _, _, _, _, _, own, _⟩ := texts_split first
      exact ih own
    · rw [@rendered_of_inclusion (.mk context node pass) includes] at member
      cases member

end Moment

/-! Elsewhere an unknown node is as good as a keyword. -/

namespace Node

variable {node child : Node}

theorem hushAll_eq_map (nodes : List Node) : hushAll nodes = nodes.map hush := by
  induction nodes with
  | nil => rfl
  | cons node rest ih => rw [hushAll, ih, List.map_cons]

@[simp] theorem hush_children (node : Node) : node.hush.children = node.children.map hush := by
  cases node
  exact hushAll_eq_map _

@[simp] theorem hush_named (node : Node) : node.hush.named = node.named := by
  cases node
  rfl

@[simp] theorem hush_line (node : Node) : node.hush.line = node.line := by
  cases node
  rfl

@[simp] theorem hush_text (node : Node) : node.hush.text = node.text := by
  cases node
  rfl

theorem hush_kind_of_known (known : node.isUnknown = false) : node.hush.kind = node.kind := by
  obtain ⟨kind, named, line, text, children⟩ := node
  cases named with
  | false => rfl
  | true => cases kind <;> simp_all [isUnknown, hush, Kind.hush]

theorem hush_kind (node : Node) :
    node.hush.kind = node.kind ∨ (node.hush.kind = .token ∧ ∃ name, node.kind = .other name) := by
  by_cases known : node.isUnknown = false
  · exact .inl (hush_kind_of_known known)
  · obtain ⟨named, name, kind⟩ := isUnknown_iff.1 (Bool.not_eq_false _ ▸ known)
    refine .inr ⟨?_, name, kind⟩
    cases node
    simp_all [hush, Kind.hush]

/-- Only the kind of an unknown node is another one, and it is none that a rule asks for. -/
theorem hush_kind_eq_iff {kind : Kind} (real : kind ≠ .token) (common : ∀ name, kind ≠ .other name) :
    node.hush.kind = kind ↔ node.kind = kind := by
  rcases hush_kind node with same | ⟨hushed, name, other⟩
  · rw [same]
  · rw [hushed, other]
    exact ⟨fun same => absurd same.symm real, fun same => absurd same.symm (common name)⟩

theorem hush_namedChildren (node : Node) : node.hush.namedChildren = node.namedChildren.map hush := by
  simp only [namedChildren, hush_children, List.filter_map, Function.comp_def, hush_named]

theorem hush_namedChild (node : Node) (index : Nat) :
    node.hush.namedChild? index = (node.namedChild? index).map hush := by
  simp only [namedChild?, hush_namedChildren, List.getElem?_map]

theorem hush_find {kind : Kind} (real : kind ≠ .token) (common : ∀ name, kind ≠ .other name)
    (node : Node) : node.hush.find? kind = (node.find? kind).map hush := by
  simp only [find?, hush_namedChildren, List.find?_map, Function.comp_def,
    hush_kind_eq_iff real common]

theorem hush_keyword (node : Node) : node.hush.keyword = node.keyword := by
  simp only [keyword, hush_children, List.find?_map, Function.comp_def, hush_named]
  cases node.children.find? (!·.named) <;> simp

theorem clauseChildren_hush (branches : List Node) :
    clauseChildren (branches.map hush) = (clauseChildren branches).map hush := by
  induction branches with
  | nil => rfl
  | cons branch rest ih =>
    rw [List.map_cons, clauseChildren, clauseChildren, ih]
    simp only [hush_namedChild]
    rcases hush_kind branch with same | ⟨hushed, name, other⟩
    · rw [same]
      cases branch.kind
      case elifClause =>
        cases branch.namedChild? 0 <;> cases branch.namedChild? 1 <;> rfl
      case elseClause => cases branch.namedChild? 0 <;> rfl
      all_goals rfl
    · simp only [hushed, other, List.map_nil]

theorem rendered_hush (known : node.isUnknown = false) :
    node.hush.rendered = node.rendered.map hush := by
  unfold rendered
  rw [hush_kind_of_known known]
  cases node.kind with
  | conditional =>
    have tests : node.hush.testsName = node.testsName := by simp only [testsName, hush_keyword]
    simp only [conditionalChildren, hush_namedChild, tests, hush_namedChildren, ← List.map_drop,
      clauseChildren_hush]
    cases node.namedChild? 0 with
    | none => rfl
    | some test =>
      cases node.namedChild? 1 with
      | none => rfl
      | some body =>
        simp only [Option.map_some, List.map_append, List.append_cancel_right_eq]
        cases node.testsName <;> rfl
  | diagnostic =>
    simp only [child?, hush_children, List.getElem?_map]
    cases node.children[1]? <;> rfl
  | not =>
    simp only [hush_namedChild]
    cases node.namedChild? 0 <;> rfl
  | and | or | eq =>
    simp only [operands, hush_namedChild]
    cases node.namedChild? 0 <;> cases node.namedChild? 1 <;> rfl
  | rule =>
    simp only [ruleChildren, hush_namedChild, @hush_find .ruleBody (by simp) (by simp)]
    cases node.namedChild? 0 <;> cases node.find? .ruleBody <;> rfl
  | buildCommand =>
    simp only [@hush_find .command (by simp) (by simp)]
    cases node.find? .command <;> rfl
  | sourceFile | body | ruleBody => exact hush_children node
  | _ => rfl

end Node

namespace Render

variable {context : Context} {node child : Node}

theorem unknown_hush (known : node.isUnknown = false) : unknown node.hush = unknown node := by
  simp only [unknown, Node.hush_kind_of_known known, Node.hush_line]

theorem malformed_hush (known : node.isUnknown = false) (expected : String) :
    malformed node.hush expected = malformed node expected := by
  simp only [malformed, Node.hush_kind_of_known known, Node.hush_line]

/-- What follows a required child, where it asks for nothing that differs. -/
theorem require_hush {β : Type} (known : node.isUnknown = false) (expected : String)
    (found : Option Node) {next other : Node → Render β}
    (same : ∀ child ∈ found, next child.hush = other child) :
    (require node.hush expected (found.map Node.hush) >>= next) =
      require node expected found >>= other := by
  cases found with
  | none =>
    simp only [Option.map_none, require_none, throw_bind, malformed_hush known]
  | some child =>
    simp only [Option.map_some, require_some, pure_bind]
    exact same child rfl

theorem verbatim_hush (known : node.isUnknown = false) : verbatim node.hush = verbatim node := by
  simp only [verbatim, Node.hush_kind_of_known known, Node.hush_line, Node.hush_text]

theorem reference_hush (known : node.isUnknown = false) (mode : Mode) :
    reference node.hush mode = reference node mode := by
  unfold reference
  rw [Node.hush_find (by simp) (by simp), Node.hush_find (by simp) (by simp)]
  cases modified : node.find? .expansionMod with
  | some modifier =>
    have kind : modifier.kind = .expansionMod := by simpa using List.find?_some modified
    simp only [Option.map_some, @unknown_hush modifier (by simp [Node.isUnknown, kind])]
  | none =>
    apply require_hush known
    intro name _
    rw [Node.hush_text]

theorem childFragments_hush (known : child.isUnknown = false) :
    childFragments child.hush = childFragments child := by
  unfold childFragments
  simp only [Node.hush_kind_of_known known, Node.hush_text, Node.hush_named, reference_hush known,
    unknown_hush known, verbatim_hush known]

theorem collect_hush {nodes : List Node} (known : ∀ child ∈ nodes, child.isUnknown = false) :
    collect (nodes.map Node.hush) = collect nodes := by
  induction nodes with
  | nil => rfl
  | cons child rest ih =>
    rw [List.map_cons, collect, collect, childFragments_hush (known child List.mem_cons_self),
      ih fun other member => known other (List.mem_cons_of_mem _ member)]

theorem fragments_hush (known : ∀ child ∈ node.pieces, child.isUnknown = false) :
    fragments node.hush = fragments node := by
  have written : writtenFragments node.hush = writtenFragments node := by
    by_cases expands : ∃ mode, node.kind = .expansion mode
    · obtain ⟨mode, kind⟩ := expands
      have own : node.isUnknown = false := by simp [Node.isUnknown, kind]
      simp only [writtenFragments, Node.hush_kind_of_known own, kind, reference_hush own]
    · have plain : ∀ mode, node.kind ≠ .expansion mode := fun mode same => expands ⟨mode, same⟩
      have hushed : ∀ mode, node.hush.kind ≠ .expansion mode := fun mode same =>
        plain mode ((Node.hush_kind_eq_iff (by simp) (by simp)).1 same)
      rw [pieces_of_plain plain] at known
      rw [writtenFragments_of_kind plain, writtenFragments_of_kind hushed, Node.hush_children,
        collect_hush known, Node.hush_text, List.isEmpty_map]
  unfold fragments
  rw [written, Node.hush_line]

theorem value_hush (known : ∀ child ∈ node.pieces, child.isUnknown = false) :
    value node.hush = value node := by
  unfold value
  rw [fragments_hush known]

theorem path_hush {β : Type} (own : node.isUnknown = false)
    (known : ∀ child ∈ (node.find? .path).toList.flatMap Node.pieces, child.isUnknown = false)
    (next : Text → Render β) :
    (require node.hush "path" (node.hush.find? .path) >>= fun path => staticPath context path >>= next) =
      require node "path" (node.find? .path) >>= fun path => staticPath context path >>= next := by
  rw [Node.hush_find (by simp) (by simp)]
  apply require_hush own
  intro path found
  have pieces : ∀ child ∈ path.pieces, child.isUnknown = false := by
    intro child member
    exact known child (List.mem_flatMap.2 ⟨path, Option.mem_toList.2 found, member⟩)
  rw [staticPath, fragments_hush pieces, staticPath]

theorem assignment_hush (own : node.isUnknown = false)
    (known : ∀ child ∈ (node.namedChild? 1).toList.flatMap Node.pieces, child.isUnknown = false)
    (settings : Settings) (appends expands : Bool) :
    assignment settings node.hush appends expands = assignment settings node appends expands := by
  have valued : valueFragments node.hush = valueFragments node := by
    unfold valueFragments
    rw [Node.hush_namedChild]
    cases found : node.namedChild? 1 with
    | none => rfl
    | some value =>
      rw [found] at known
      exact fragments_hush (by simpa using known)
  rw [assignment_eq, assignment_eq, valued, Node.hush_find (by simp) (by simp)]
  apply require_hush own
  intro name _
  rw [Node.hush_text, Node.hush_line]

theorem closeTest_hush (node test : Node) (said : List Text) :
    closeTest node.hush test.hush said = closeTest node test said := by
  simp only [closeTest, Node.hush_keyword, Node.hush_text]

theorem closeClauses_hush (own : node.isUnknown = false) (branches : List Node) (said : List Text) :
    closeClauses node.hush (branches.map Node.hush) said = closeClauses node branches said := by
  induction branches generalizing said with
  | nil => rfl
  | cons branch rest ih =>
    rw [List.map_cons, closeClauses, closeClauses]
    simp only [ih, malformed_hush own, Node.hush_namedChild]
    rcases Node.hush_kind branch with same | ⟨hushed, name, other⟩
    · rw [same]
      cases kind : branch.kind
      case elifClause =>
        have known : branch.isUnknown = false := by simp [Node.isUnknown, kind]
        apply require_hush known
        intro test _
        exact require_hush known _ _ fun body _ => rfl
      case elseClause =>
        have known : branch.isUnknown = false := by simp [Node.isUnknown, kind]
        exact require_hush known _ _ fun body _ => rfl
      all_goals rfl
    · simp only [hushed, other]

theorem closeConditional_hush (own : node.isUnknown = false) (said : List Text) :
    closeConditional node.hush said = closeConditional node said := by
  unfold closeConditional
  simp only [Node.hush_namedChild, Node.hush_namedChildren, ← List.map_drop, closeClauses_hush own]
  apply require_hush own
  intro test _
  apply require_hush own
  intro body _
  rw [closeTest_hush]

theorem closeOperands_hush (own : node.isUnknown = false)
    (known : ∀ child ∈ node.operands, child.isUnknown = false)
    (join : Kind × Text → Kind × Text → Text) (said : List Text) :
    closeOperands node.hush join said = closeOperands node join said := by
  unfold closeOperands
  simp only [Node.hush_namedChild]
  apply require_hush own
  intro left first
  apply require_hush own
  intro right second
  have both : node.operands = [left, right] := by
    rw [Node.operands, Option.mem_def.1 first, Option.mem_def.1 second]
  rw [both] at known
  rw [Node.hush_kind_of_known (known left (by simp)), Node.hush_kind_of_known (known right (by simp))]

theorem closeCommand_hush (node : Node) (command : Text) :
    closeCommand node.hush command = closeCommand node command := by
  have modifiers : (node.hush.namedChildren.filter fun child => child.kind = .commandMod).flatMap
      (·.text) =
      (node.namedChildren.filter fun child => child.kind = .commandMod).flatMap (·.text) := by
    have asks (child : Node) : child.hush.kind = .commandMod ↔ child.kind = .commandMod :=
      Node.hush_kind_eq_iff (by simp) (by simp)
    simp only [Node.hush_namedChildren, List.filter_map, Function.comp_def, asks, List.flatMap_map,
      Node.hush_text]
  unfold closeCommand
  rw [modifiers, Node.hush_find (by simp) (by simp), Node.hush_line, Node.hush_text]
  cases node.find? .builtinCommand with
  | none => rfl
  | some name => simp only [Option.map_some, Node.hush_text]

/-- The second phase, where the rule looks at no unknown node. -/
theorem finish_hush (own : node.isUnknown = false)
    (rendered : ∀ child ∈ node.rendered, child.isUnknown = false)
    (inspected : ∀ child ∈ node.inspected, child.isUnknown = false) (said : List Text) :
    node.hush.finish context said = node.finish context said := by
  unfold Node.finish
  unfold Node.inspected at inspected
  unfold Node.rendered at rendered
  rw [Node.hush_kind_of_known own]
  cases kind : node.kind with
  | conditional => exact closeConditional_hush own said
  | and | or | eq =>
    simp only [kind] at rendered
    exact closeOperands_hush own rendered _ said
  | buildCommand => exact closeCommand_hush node _
  | sourceFile | body | ruleBody => rfl
  | not =>
    simp only [kind] at rendered
    unfold closeNegation
    rw [Node.hush_namedChild]
    apply require_hush own
    intro operand found
    rw [Node.hush_kind_of_known (rendered operand (Option.mem_toList.2 found))]
  | diagnostic =>
    unfold closeDiagnostic Node.child?
    rw [Node.hush_children, List.getElem?_map, Node.hush_line]
    apply require_hush own
    intro marker _
    rw [Node.hush_text]
  | rule =>
    simp only [kind] at inspected
    unfold closeRule
    rw [Node.hush_namedChild]
    apply require_hush own
    intro target found
    have known := inspected target (Option.mem_toList.2 found)
    simp only [aimed, Node.hush_kind_of_known known, Node.hush_text, unknown_hush known]
  | assignment appends expands =>
    simp only [kind] at inspected
    simp only [Render.node, Node.hush_kind_of_known own, kind]
    exact assignment_hush own inspected _ _ _
  | search =>
    simp only [kind] at inspected
    simp only [Render.node, Node.hush_kind_of_known own, kind, search, Node.hush_line]
    exact path_hush own inspected _
  | isDefined =>
    simp only [Render.node, Node.hush_kind_of_known own, kind, isDefined]
    rw [Node.hush_find (by simp) (by simp)]
    exact require_hush own _ _ fun name _ => by rw [Node.hush_text]
  | undef =>
    simp only [Render.node, Node.hush_kind_of_known own, kind, undef]
    rw [Node.hush_find (by simp) (by simp)]
    exact require_hush own _ _ fun name _ => by rw [Node.hush_text]
  | expansion | value | literal | message | command | path =>
    simp only [kind] at inspected
    simp only [Render.node, Node.hush_kind_of_known own, kind]
    exact value_hush inspected
  | _ =>
    simp only [Render.node, Node.hush_kind_of_known own, kind, Node.hush_text, Node.hush_line,
      Node.hush_named, unknown_hush own, verbatim_hush own]

theorem located_hush (includes : node.kind = .inclusion)
    (inspected : ∀ child ∈ node.inspected, child.isUnknown = false) :
    located context node.hush = located context node := by
  unfold Node.inspected at inspected
  simp only [includes] at inspected
  exact path_hush (by simp [Node.isUnknown, includes]) inspected _

end Render

namespace Moment

theorem texts_map {context : Context} {nodes : List Node} {change : Node → Node}
    (same : ∀ child ∈ nodes, ∀ pass,
      (Moment.mk context (change child) pass).run = (Moment.mk context child pass).run) :
    context.texts (nodes.map change) = context.texts nodes := by
  induction nodes with
  | nil => rfl
  | cons child rest ih =>
    have first : ((change child).plan context context.follow).text =
        (child.plan context context.follow).text := by
      rw [← Node.render_room, ← Node.render_room]
      exact funext (same child List.mem_cons_self)
    have later := ih fun other member => same other (List.mem_cons_of_mem _ member)
    simp only [Context.texts, List.map_cons, Render.texts] at later ⊢
    rw [first, later]

/-- Induction on the size of the tree: the nodes that are rendered are smaller. -/
theorem run_hush {tree : Node} (known : ∀ node, tree.Heeds node → node.isUnknown = false)
    (context : Context) (pass : Pass) :
    (Moment.mk context tree.hush pass).run = (Moment.mk context tree pass).run := by
  induction size : sizeOf tree using Nat.strongRecOn generalizing tree pass with
  | _ _ ih =>
    have own := known tree (.self tree)
    have inspected : ∀ child ∈ tree.inspected, child.isUnknown = false :=
      fun child member => known child (.inspected member)
    by_cases includes : tree.kind = .inclusion
    · have hushed : tree.hush.kind = .inclusion := (Node.hush_kind_of_known own).trans includes
      rw [@run_eq_inclusion (.mk context tree.hush pass) hushed,
        @run_eq_inclusion (.mk context tree pass) includes]
      simp only [Context.follow, Render.inclusion_eq, Render.located_hush includes inspected,
        Node.hush_line]
    · have hushed : tree.hush.kind ≠ .inclusion := by rwa [Node.hush_kind_of_known own]
      have rendered : ∀ child ∈ tree.rendered, child.isUnknown = false :=
        fun child member => known child (.rendered member (.self child))
      have texts : context.texts (tree.rendered.map Node.hush) = context.texts tree.rendered := by
        apply texts_map
        intro child member pass
        have smaller := Node.sizeOf_lt_of_mem_rendered member
        apply ih (sizeOf child) (size ▸ smaller) _ pass rfl
        exact fun node heeds => known node (.rendered member heeds)
      have closes : tree.hush.finish context = tree.finish context :=
        funext (Render.finish_hush own rendered inspected)
      rw [@run_eq_finish (.mk context tree.hush pass) hushed,
        @run_eq_finish (.mk context tree pass) includes]
      simp only [Node.rendered_hush own, texts, closes]

end Moment

namespace Render

/-- Rendering a tree fails where it looks at an unknown node, in any surroundings and at any point of
a pass; where it looks at none, the unknown nodes in the tree do no more than keywords would. -/
theorem unknown_fatal_where_heeded (tree : Node) :
    (∀ node, tree.Heeds node → node.isUnknown = true → ∀ context pass text after,
      (Moment.mk context tree pass).run ≠ .ok text after) ∧
    ((∀ node, tree.Heeds node → node.isUnknown = false) → ∀ context pass,
      (Moment.mk context tree.hush pass).run = (Moment.mk context tree pass).run) := by
  constructor
  · intro node heeds unknown context pass text after ran
    rw [Moment.known_of_heeds heeds ran] at unknown
    cases unknown
  · exact fun known context pass => Moment.run_hush known context pass

/-- A production that no rule knows. -/
def prerequisites : Node :=
  .leaf (.other "prerequisites".toList) 2 "all".toList

def listedUnit : Node :=
  .branch .sourceFile 1 [] [.branch .conditional 1 []
    [.leaf .identifier 1 ['A'], .branch .body 2 "all".toList [prerequisites]]]

theorem listedUnit_fatal :
    listedUnit.Heeds prerequisites ∧ prerequisites.isUnknown = true ∧
      ∀ context pass text after, (Moment.mk context listedUnit pass).run ≠ .ok text after := by
  have heeds : listedUnit.Heeds prerequisites := by
    apply Node.Heeds.rendered List.mem_cons_self
    apply Node.Heeds.rendered (List.mem_cons_of_mem _ List.mem_cons_self)
    exact .rendered List.mem_cons_self (.self prerequisites)
  exact ⟨heeds, rfl, (unknown_fatal_where_heeded listedUnit).1 prerequisites heeds rfl⟩

def dependentRule : Node :=
  .branch .rule 1 "always: all".toList
    [.leaf .always 1 "always".toList, prerequisites, .branch .ruleBody 2 [] []]

/-- Behind the target of a rule an unknown node is passed over. -/
theorem dependentRule_compiled :
    prerequisites.isUnknown = true ∧ prerequisites ∈ dependentRule.children ∧
      (Compile.tree (Compile.standard (fun _ => .error .notFound) { prelude := false } [])
        (.branch .sourceFile 1 "always: all".toList [dependentRule]) {}).result = .ok ⟨[], [], {}⟩ :=
  ⟨rfl, List.mem_cons_of_mem _ List.mem_cons_self, rfl⟩

end Render

end BmakeZig
