import BmakeZig.Proofs.Render.Plan
import BmakeZig.Proofs.Zig.Endings

/-! Trees of one unit under two ways of ending lines, rendered. They differ in the spans of whole
statements, of which only those of unread ones are copied; so the texts have the same lines, and the pass
goes the same way. -/
namespace BmakeZig

namespace Node

variable {ending : Text} {node other : Node}

mutual

theorem shift_zero : (node : Node) → node.shift 0 = node
  | ⟨kind, named, line, text, children⟩ => by rw [shift, shiftAll_zero children, Nat.add_zero]

theorem shiftAll_zero : (nodes : List Node) → shiftAll 0 nodes = nodes
  | [] => rfl
  | node :: rest => by rw [shiftAll, shift_zero node, shiftAll_zero rest]

end

/-- Only spans of whole statements are rewritten. -/
theorem Like.eq_of_tight (like : Like 0 ending node other) (tight : node.kind.isLoose = false) :
    other = node := by
  cases like with
  | same => exact node.shift_zero
  | span loose => simp_all [Node.branch]

/-- A node like another one has children like the children of that one. -/
theorem Like.of_branch {kind : Kind} {line : Nat} {text : Text} {children : List Node}
    (like : Like 0 ending (.branch kind line text children) other) :
    ∃ text' children', other = .branch kind line text' children' ∧
      (text' = text ∨ Text.Rewritten ending text text') ∧
      List.Forall₂ (Like 0 ending) children children' := by
  generalize same : Node.branch kind line text children = node at like
  cases like with
  | same =>
    subst same
    refine ⟨text, children, shift_zero _, .inl rfl, ?_⟩
    have below := @likes_shift 0 ending children
    rwa [← shiftAll_eq_map, shiftAll_zero] at below
  | span loose rewritten below =>
    obtain ⟨rfl, -, rfl, rfl, rfl⟩ := Node.mk.inj same
    exact ⟨_, _, rfl, .inr rewritten, below⟩

theorem eq_of_forall₂ {nodes others : List Node} (like : List.Forall₂ (Like 0 ending) nodes others)
    (tight : ∀ node ∈ nodes, node.kind.isLoose = false) : others = nodes := by
  have same := @eq_map_of_forall₂ nodes others _ id like fun node member _ like =>
    like.eq_of_tight (tight node member)
  rwa [List.map_id] at same

theorem named_of_forall₂ {nodes others : List Node} (like : List.Forall₂ (Like 0 ending) nodes others)
    (named : ∀ node ∈ nodes, node.named = true) : ∀ other ∈ others, other.named = true := by
  induction like with
  | nil => simp
  | cons first _ ih =>
    obtain ⟨own, rest⟩ := List.forall_mem_cons.1 named
    exact List.forall_mem_cons.2 ⟨first.named_eq.trans own, ih rest⟩

theorem forall₂_pair {α β : Type} {related : α → β → Prop} {first second : α} {right : List β}
    (all : List.Forall₂ related [first, second] right) :
    ∃ first' second', right = [first', second'] ∧ related first first' ∧ related second second' := by
  obtain ⟨first', _, own, rest, rfl⟩ := List.forall₂_cons_left_iff.1 all
  obtain ⟨second', _, next, last, rfl⟩ := List.forall₂_cons_left_iff.1 rest
  cases last
  exact ⟨first', second', rfl, own, next⟩

theorem forall₂_triple {α β : Type} {related : α → β → Prop} {first second third : α} {right : List β}
    (all : List.Forall₂ related [first, second, third] right) :
    ∃ first' second' third', right = [first', second', third'] ∧ related first first' ∧
      related second second' ∧ related third third' := by
  obtain ⟨first', _, own, rest, rfl⟩ := List.forall₂_cons_left_iff.1 all
  obtain ⟨second', third', rfl, next, last⟩ := forall₂_pair rest
  exact ⟨first', second', third', rfl, own, next, last⟩

theorem forall₂_append {α β : Type} {related : α → β → Prop} {left more : List α} {right : List β}
    (all : List.Forall₂ related (left ++ more) right) :
    ∃ first second, right = first ++ second ∧ List.Forall₂ related left first ∧
      List.Forall₂ related more second := by
  induction left generalizing right with
  | nil => exact ⟨[], right, rfl, .nil, all⟩
  | cons value left ih =>
    cases all with
    | @cons _ value' _ right own rest =>
      obtain ⟨first, second, rfl, front, back⟩ := ih rest
      exact ⟨value' :: first, second, rfl, .cons own front, back⟩

end Node

/-- The roles of nodes that stand on one line. -/
def Role.isTight : Role → Bool
  | .name | .expansion | .piece | .condition | .target | .entry => true
  | .phrase kind => !kind.isLoose
  | _ => false

theorem Shape.tight {role : Role} {node : Node} (shape : Shape role node)
    (tight : role.isTight = true) : node.kind.isLoose = false := by
  induction shape with
  | phrase => simpa [Role.isTight, Node.branch] using tight
  | joined kinds => rcases kinds with rfl | rfl | rfl <;> rfl
  | expanded _ ih | named _ ih | expansion _ ih => exact ih rfl
  | elseIf | otherwise | body | comment | error | assignment | undef | diagnostic | located | rule
  | conditional => cases tight
  | _ => rfl

namespace Render

variable {α β : Type} {related : α → α → Prop} {related' : β → β → Prop}

/-- Two runs that fail alike, or end in the same pass with results that are related. -/
inductive Same (related : α → α → Prop) :
    EStateM.Result Fault Pass α → EStateM.Result Fault Pass α → Prop where
  | ok {value value' : α} (holds : related value value') (pass : Pass) :
      Same related (.ok value pass) (.ok value' pass)
  | error (fault : Fault) (pass : Pass) : Same related (.error fault pass) (.error fault pass)

def Alike (related : α → α → Prop) (action action' : Render α) : Prop :=
  ∀ pass, Same related (action pass) (action' pass)

theorem alike_pure {value value' : α} (holds : related value value') :
    Alike related (pure value) (pure value') :=
  fun pass => .ok holds pass

theorem alike_refl (reflexive : ∀ value, related value value) (action : Render α) :
    Alike related action action := by
  intro pass
  cases action pass with
  | ok value after => exact .ok (reflexive value) after
  | error fault after => exact .error fault after

theorem Alike.bind {action action' : Render α} {next next' : α → Render β}
    (first : Alike related action action')
    (each : ∀ value value', related value value' → Alike related' (next value) (next' value')) :
    Alike related' (action >>= next) (action' >>= next') := by
  intro pass
  have ran := first pass
  simp only [Bind.bind, EStateM.bind]
  cases done : action pass <;> cases done' : action' pass <;> rw [done, done'] at ran <;> cases ran
  · next holds => exact each _ _ holds _
  · exact .error _ _

theorem alike_texts {parts parts' : List Part}
    (each : List.Forall₂ (fun part part' => Alike Text.SameLines part.text part'.text) parts parts') :
    Alike (List.Forall₂ Text.SameLines) (texts parts) (texts parts') := by
  induction each with
  | nil => exact alike_pure .nil
  | cons first rest ih =>
    exact first.bind fun _ _ same => ih.bind fun _ _ others => alike_pure (.cons same others)

theorem alike_lines {parts parts' : List Part}
    (each : List.Forall₂ (fun part part' => Alike Text.SameLines part.text part'.text) parts parts') :
    Alike Text.SameLines (lines parts) (lines parts') :=
  (alike_texts each).bind fun _ _ same => alike_pure (.joinWith ['\n'] same)

theorem alike_clauses {node node' : Node} {parts parts' : List Part}
    (each : List.Forall₂ (fun part part' => Alike Eq (part.clause node) (part'.clause node')) parts parts') :
    Alike Eq (clauses node parts) (clauses node' parts') := by
  induction each with
  | nil => exact alike_pure rfl
  | cons first rest ih =>
    exact first.bind fun _ _ same => ih.bind fun _ _ others => alike_pure (by rw [same, others])

/-- How nodes in a role are rendered: statements into texts with the same lines, clauses into the same
text. The other roles have nodes that are the same. -/
def RendersAlike (context : Context) (follow : Node → Render Text) : Role → Node → Node → Prop
  | .statement, node, other | .body, node, other =>
    Alike Text.SameLines (node.plan context follow).text (other.plan context follow).text
  | .clause, node, other => ∀ parent parent',
    Alike Eq ((node.plan context follow).clause parent) ((other.plan context follow).clause parent')
  | _, _, _ => True

variable {context : Context} {follow : Node → Render Text} {role : Role} {node other : Node}

theorem alike_of_eq (same : other = node) :
    Alike Text.SameLines (node.plan context follow).text (other.plan context follow).text :=
  same ▸ alike_refl Text.SameLines.refl _

theorem guarded_sameLines {body body' : Text} (same : Text.SameLines body body') (test : Text) :
    guarded test body = guarded test body' := by
  unfold guarded
  rw [Zig.block_sameLines same]

theorem clean_child {child : Node} (clean : ∀ inner ∈ node.all, '\r' ∉ inner.text)
    (member : child ∈ node.children) : ∀ inner ∈ child.all, '\r' ∉ inner.text :=
  fun inner inside => clean inner (Node.mem_all.2 (.inr ⟨child, member, inside⟩))

theorem forall₂_plan {nodes others : List Node} {wanted : Part → Part → Prop}
    (like : List.Forall₂ (Node.Like 0 ['\r']) nodes others)
    (each : ∀ node ∈ nodes, ∀ other, Node.Like 0 ['\r'] node other →
      wanted (node.plan context follow) (other.plan context follow)) :
    List.Forall₂ wanted (nodes.map (Node.plan context follow)) (others.map (Node.plan context follow)) := by
  rw [List.forall₂_map_left_iff, List.forall₂_map_right_iff]
  exact Node.forall₂_of_mem like each

/-- Induction on the shape of the first tree. What becomes of an included unit does not depend on the span
of the statement. -/
theorem rendersAlike (follows : ∀ line text text' children,
      follow (.branch .inclusion line text children) = follow (.branch .inclusion line text' children))
    (shape : Shape role node) (like : Node.Like 0 ['\r'] node other)
    (clean : ∀ inner ∈ node.all, '\r' ∉ inner.text) : RendersAlike context follow role node other := by
  induction shape generalizing other with
  | name | plain | modified | literal | expanded | phrase | named | string | expansion | defined | negated
  | joined | always | declared | remark | command => trivial
  | comment | assignment | undef => exact alike_of_eq (like.eq_of_tight rfl)
  | @error line text =>
    obtain ⟨text', children', rfl, spans, below⟩ := like.of_branch
    cases below
    -- The one statement whose span is copied.
    have plain : '\r' ∉ text := clean (.leaf .error line text) (Node.mem_all.2 (.inl rfl))
    refine alike_pure ?_
    rcases spans with rfl | rewritten
    · exact .refl _
    · exact (Zig.unreadSpan_sameLines plain rewritten line).symm
  | diagnostic reports said =>
    obtain ⟨text', children', rfl, -, below⟩ := like.of_branch
    obtain ⟨_, _, rfl, token, message⟩ := Node.forall₂_pair below
    rw [token.eq_of_tight rfl, message.eq_of_tight (said.tight rfl)]
    exact alike_refl Text.SameLines.refl _
  | located kinds place =>
    obtain ⟨text', children', rfl, -, below⟩ := like.of_branch
    obtain ⟨_, _, rfl, token, path⟩ := Node.forall₂_pair below
    rw [token.eq_of_tight rfl, path.eq_of_tight (place.tight rfl)]
    change Alike _ _ _
    rw [Node.plan_text, Node.plan_text]
    rcases kinds with rfl | rfl
    · change Alike _ (follow _) (follow _)
      rw [follows]
      exact alike_refl Text.SameLines.refl _
    · exact alike_refl Text.SameLines.refl _
  | rule aimed each =>
    obtain ⟨text', children', rfl, -, below⟩ := like.of_branch
    obtain ⟨_, _, _, rfl, target, token, body⟩ := Node.forall₂_triple below
    obtain ⟨_, entries', rfl, -, entries⟩ := body.of_branch
    have same := Node.eq_of_forall₂ entries fun entry member => (each entry member).tight rfl
    rw [token.eq_of_tight rfl, target.eq_of_tight (aimed.tight rfl), same]
    change Alike _ _ _
    rw [rule_plan aimed, rule_plan aimed]
    exact alike_refl Text.SameLines.refl _
  | body _ ih =>
    obtain ⟨text', children', rfl, -, below⟩ := like.of_branch
    change Alike _ _ _
    rw [Node.plan_text, Node.plan_text]
    exact alike_lines (forall₂_plan below fun child member other like =>
      ih child member like (clean_child clean member))
  | elseIf tested held _ ih =>
    obtain ⟨text', children', rfl, -, below⟩ := like.of_branch
    obtain ⟨_, _, _, rfl, token, test, body⟩ := Node.forall₂_triple below
    have inner := ih body (clean_child clean (by simp [Node.branch]))
    rw [token.eq_of_tight rfl, test.eq_of_tight (tested.tight rfl)]
    intro parent parent'
    rw [elseIf_plan ⟨tested.isNamed, held.isNamed⟩,
      elseIf_plan ⟨tested.isNamed, body.named_eq.trans held.isNamed⟩]
    refine (alike_refl Eq.refl _).bind fun condition _ equal => inner.bind fun _ _ same => alike_pure ?_
    rw [equal, guarded_sameLines same]
  | otherwise held ih =>
    obtain ⟨text', children', rfl, -, below⟩ := like.of_branch
    obtain ⟨_, _, rfl, token, body⟩ := Node.forall₂_pair below
    have inner := ih body (clean_child clean (by simp [Node.branch]))
    rw [token.eq_of_tight rfl]
    intro parent parent'
    rw [otherwise_plan held.isNamed, otherwise_plan (body.named_eq.trans held.isNamed)]
    refine inner.bind fun _ _ same => alike_pure ?_
    rw [Zig.block_sameLines same]
  | @conditional directive _ _ _ _ _ _ _ _ tested held each _ ihBody ihClauses =>
    obtain ⟨text', children', rfl, -, below⟩ := like.of_branch
    obtain ⟨_, _, rfl, front, last⟩ := Node.forall₂_append below
    obtain ⟨_, _, token, rest, rfl⟩ := List.forall₂_cons_left_iff.1 front
    obtain ⟨_, _, test, later, rfl⟩ := List.forall₂_cons_left_iff.1 rest
    obtain ⟨_, _, body, branches, rfl⟩ := List.forall₂_cons_left_iff.1 later
    obtain ⟨_, _, ending, done, rfl⟩ := List.forall₂_cons_left_iff.1 last
    cases done
    -- Tests stand on one line; bodies and clauses are laid out in blocks.
    have tight : directive.testRole.isTight = true := by cases directive <;> rfl
    have inner := ihBody body (clean_child clean (by simp [Node.branch]))
    have named := Node.named_of_forall₂ branches fun clause member => (each clause member).isNamed
    rw [token.eq_of_tight rfl, test.eq_of_tight (tested.tight tight), ending.eq_of_tight rfl]
    change Alike _ _ _
    rw [conditional_plan ⟨tested.isNamed, held.isNamed, fun clause member => (each clause member).isNamed⟩,
      conditional_plan ⟨tested.isNamed, body.named_eq.trans held.isNamed, named⟩]
    refine (alike_refl Eq.refl _).bind fun condition _ equal => inner.bind fun _ _ same =>
      Alike.bind (alike_clauses (forall₂_plan branches fun clause member other like => ?_)) fun _ _ more =>
        alike_pure ?_
    · exact ihClauses clause member like (clean_child clean (by simp [Node.branch, member])) _ _
    · rw [equal, more, guarded_sameLines same]
      exact .refl _

end Render

end BmakeZig
