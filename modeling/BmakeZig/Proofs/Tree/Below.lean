import BmakeZig.Proofs.Tree.Placement
import BmakeZig.Proofs.Tree.Shape

/-! All nodes of a tree. In a unit each of them has a shape of its own or belongs to the shape of its
parent, so what a node is made of follows from its kind. -/
namespace BmakeZig

mutual

/-- The node and all nodes below it, in source order. -/
def Node.all : Node → List Node
  | ⟨kind, named, line, text, children⟩ => ⟨kind, named, line, text, children⟩ :: allOf children

def Node.allOf : List Node → List Node
  | [] => []
  | node :: rest => node.all ++ allOf rest

end

namespace Node

theorem allOf_eq_flatMap (nodes : List Node) : allOf nodes = nodes.flatMap all := by
  induction nodes with
  | nil => rfl
  | cons node nodes ih => rw [allOf, ih, List.flatMap_cons]

theorem mem_all {node root : Node} :
    node ∈ root.all ↔ node = root ∨ ∃ child ∈ root.children, node ∈ child.all := by
  cases root
  rw [all, allOf_eq_flatMap, List.mem_cons, List.mem_flatMap]

theorem sizeOf_lt_of_mem_children {node child : Node} (member : child ∈ node.children) :
    sizeOf child < sizeOf node := by
  cases node with
  | mk kind named line text children =>
    have smaller : sizeOf child < sizeOf children := List.sizeOf_lt_of_mem member
    simp only [Node.mk.sizeOf_spec]
    omega

/-- What holds of a tree and is handed down to children holds of all its nodes. -/
theorem forall_mem_all {P : Node → Prop} {root : Node} (holds : P root)
    (down : ∀ {node}, P node → ∀ child ∈ node.children, P child) : ∀ node ∈ root.all, P node := by
  induction size : sizeOf root using Nat.strongRecOn generalizing root with
  | _ _ ih =>
    intro node member
    rcases mem_all.1 member with rfl | ⟨child, listed, inside⟩
    · exact holds
    · have smaller := sizeOf_lt_of_mem_children listed
      exact ih (sizeOf child) (size ▸ smaller) (down holds child listed) rfl node inside

end Node

/-- The roles that nodes have below others. A phrase is a value, a message, a command or a path. -/
def Role.isInner : Role → Bool
  | .phrase kind => kind.isPhrase
  | _ => true

/-- The kinds of nodes that belong to the shape of their parent. -/
def Kind.isBare (kind : Kind) : Bool :=
  match kind with
  | .token | .identifier | .expansionMod | .commandMod | .builtinCommand => true
  | _ => false

/-- The nodes that a unit is made of. -/
inductive Fits : Node → Prop where
  | bare {node : Node} (bare : node.kind.isBare = true) (childless : node.children = []) : Fits node
  | entries {line : Nat} {text : Text} {children : List Node}
      (each : ∀ child ∈ children, Shape .entry child) : Fits (.branch .ruleBody line text children)
  | shaped {role : Role} {node : Node} (inner : role.isInner = true) (shape : Shape role node) :
      Fits node

theorem fits_token (line : Nat) (text : Text) : Fits (.token line text) :=
  .bare rfl rfl

theorem Shape.fits_children {role : Role} {node : Node} (shape : Shape role node) :
    ∀ child ∈ node.children, Fits child := by
  induction shape with
  | name | literal | string | always | declared | remark | comment | error => simp [Node.leaf]
  | expanded _ ih | named _ ih | expansion _ ih => exact ih
  | plain named => simp [Node.branch, fits_token, Fits.shaped rfl named]
  | modified words =>
    intro child member
    rcases List.mem_append.1 member with before | last
    · rcases List.mem_cons.1 before with rfl | before
      · exact fits_token _ _
      · rcases List.mem_cons.1 before with rfl | listed
        · exact .bare rfl rfl
        · obtain ⟨childless, kind⟩ := words child listed
          refine .bare ?_ childless
          rcases kind with kind | kind <;> rw [kind] <;> rfl
    · rw [List.mem_singleton.1 last]
      exact fits_token _ _
  | phrase _ pieces _ => exact fun child member => .shaped rfl (pieces child member)
  | defined inner => simp [Node.branch, fits_token, Fits.shaped rfl inner]
  | negated inner => simp [Node.branch, fits_token, Fits.shaped rfl inner]
  | joined _ first second =>
    simp [Node.branch, fits_token, Fits.shaped rfl first, Fits.shaped rfl second]
  | command _ modifying building inner =>
    intro child member
    rcases List.mem_append.1 member with before | last
    · rcases List.mem_append.1 before with marks | words
      · obtain ⟨mark, rfl⟩ := modifying child marks
        exact .bare rfl rfl
      · rcases building with rfl | ⟨word, -, rfl⟩
        · cases words
        · rw [List.mem_singleton.1 words]
          exact .bare rfl rfl
    · rw [List.mem_singleton.1 last]
      exact .shaped rfl inner
  | elseIf tested held =>
    simp [Node.branch, fits_token, Fits.shaped rfl tested, Fits.shaped rfl held]
  | otherwise held => simp [Node.branch, fits_token, Fits.shaped rfl held]
  | body statements => exact fun child member => .shaped rfl (statements child member)
  | assignment assigned valued =>
    simp [Node.branch, fits_token, Fits.shaped rfl assigned, Fits.shaped rfl valued]
  | undef dropped => simp [Node.branch, fits_token, Fits.shaped rfl dropped]
  | diagnostic _ said => simp [Node.branch, fits_token, Fits.shaped rfl said]
  | located _ place => simp [Node.branch, fits_token, Fits.shaped rfl place]
  | rule aimed each =>
    intro child member
    rcases List.mem_cons.1 member with rfl | member
    · exact .shaped rfl aimed
    · rcases List.mem_cons.1 member with rfl | member
      · exact fits_token _ _
      · rw [List.mem_singleton.1 member]
        exact .entries each
  | @conditional directive _ _ _ _ _ _ _ _ tested held each =>
    have inner : directive.testRole.isInner = true := by cases directive <;> rfl
    intro child member
    rcases List.mem_append.1 member with before | last
    · rcases List.mem_cons.1 before with rfl | before
      · exact fits_token _ _
      · rcases List.mem_cons.1 before with rfl | before
        · exact .shaped inner tested
        · rcases List.mem_cons.1 before with rfl | listed
          · exact .shaped rfl held
          · exact .shaped rfl (each child listed)
    · rw [List.mem_singleton.1 last]
      exact fits_token _ _

theorem Fits.children {node : Node} (fits : Fits node) : ∀ child ∈ node.children, Fits child := by
  cases fits with
  | bare _ childless => simp [childless]
  | entries each => exact fun child member => .shaped rfl (each child member)
  | shaped _ shape => exact shape.fits_children

/-- Every node of a unit but the unit itself is one of those. -/
theorem fits_of_mem_all {root node : Node} (fits : ∀ child ∈ root.children, Fits child)
    (member : node ∈ root.all) : node = root ∨ Fits node := by
  rcases Node.mem_all.1 member with same | ⟨child, listed, inside⟩
  · exact .inl same
  · exact .inr (Node.forall_mem_all (fits child listed) Fits.children node inside)

/-! What a node is made of, by its kind. -/

theorem Shape.phrase_of_kind {role : Role} {node : Node} (shape : Shape role node)
    (phrase : node.kind.isPhrase = true) : Shape (.phrase node.kind) node := by
  induction shape with
  | phrase oneLine pieces cut => exact .phrase oneLine pieces cut
  | expanded _ ih | named _ ih | expansion _ ih => exact ih phrase
  | joined kinds => rcases kinds with rfl | rfl | rfl <;> simp [Node.branch, Kind.isPhrase] at phrase
  | located kinds => rcases kinds with rfl | rfl <;> simp [Node.branch, Kind.isPhrase] at phrase
  | _ => simp [Node.branch, Node.leaf, Kind.isPhrase] at phrase

theorem Shape.statement_of_kind {role : Role} {node : Node} {appends expands : Bool}
    (shape : Shape role node) (inner : role.isInner = true)
    (kind : node.kind = .assignment appends expands) : Shape .statement node := by
  induction shape with
  | phrase =>
    subst kind
    simp [Role.isInner, Kind.isPhrase] at inner
  | assignment assigned valued => exact .assignment assigned valued
  | expanded _ ih | named _ ih | expansion _ ih => exact ih rfl kind
  | joined kinds => rcases kinds with rfl | rfl | rfl <;> simp [Node.branch] at kind
  | located kinds => rcases kinds with rfl | rfl <;> simp [Node.branch] at kind
  | _ => simp [Node.branch, Node.leaf] at kind

namespace Fits

variable {node : Node}

theorem phrase_of_kind (fits : Fits node) (phrase : node.kind.isPhrase = true) :
    Shape (.phrase node.kind) node := by
  cases fits with
  | bare bare => cases kind : node.kind <;> simp_all [Kind.isBare, Kind.isPhrase]
  | entries => cases phrase
  | shaped _ shape => exact shape.phrase_of_kind phrase

theorem statement_of_kind {appends expands : Bool} (fits : Fits node)
    (kind : node.kind = .assignment appends expands) : Shape .statement node := by
  cases fits with
  | bare bare => simp [kind, Kind.isBare] at bare
  | entries => cases kind
  | shaped inner shape => exact shape.statement_of_kind inner kind

end Fits

end BmakeZig
