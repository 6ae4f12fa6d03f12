import BmakeZig.Proofs.Render.Phases
import BmakeZig.Proofs.Render.Straight
import BmakeZig.Proofs.Tree.Below
import Mathlib.Logic.Relation

/-! The moments of a pass. A moment is a call of the renderer: its surroundings, its node and the pass
as it is then. One moment calls others for the children it has rendered and for the unit it includes;
every call goes down the tree or takes up room for units, so calls come to an end whatever the loader
and the reader of units hand out. What each moment does by itself carries over to whole runs. -/
namespace BmakeZig

namespace Context

/-- How many units may still be opened inside the innermost one. -/
def room (context : Context) : Nat :=
  context.settings.maxIncludeDepth - context.stack.length

/-- The surroundings inside a unit that is being included. -/
def enter (context : Context) (place : Path) : Context :=
  { context with stack := place :: context.stack }

/-- Whether the unit at a place is being rendered already. -/
def Open (context : Context) (place : Path) : Prop :=
  context.root = some place ∨ place ∈ context.stack

instance (context : Context) (place : Path) : Decidable (context.Open place) :=
  inferInstanceAs (Decidable (_ ∨ _))

/-- What becomes of a node that includes a unit. -/
def follow (context : Context) : Node → Render Text :=
  Render.inclusion
    (if context.stack.length < context.settings.maxIncludeDepth then
      some fun inner node => node.render inner.room inner
    else none) context

/-- The texts of several nodes, one after the other. -/
def texts (context : Context) (nodes : List Node) : Render (List Text) :=
  Render.texts (nodes.map (Node.plan context context.follow))

end Context

namespace Render

/-- The unit that a node includes, with its text. -/
def located (context : Context) (node : Node) : Render (Path × Text) := do
  let path ← require node "path" (node.find? .path)
  let requested ← staticPath context path
  findUnit context requested

theorem inclusion_eq (inner : Option (Context → Node → Render Text)) (context : Context)
    (node : Node) :
    inclusion inner context node = located context node >>= fun unit =>
      if context.Open unit.1 then throw (.inclusionCycle ((context.chain unit.1).map Path.toText))
      else
        match inner with
        | none => throw (.depthExceeded unit.1.toText context.settings.maxIncludeDepth)
        | some inner => do
          note (.including node.line unit.1.toText (context.stack.length + 1))
          let rendered ← inner (context.enter unit.1) (context.parse unit.2)
          return included unit.1 rendered := by
  simp only [inclusion, located, bind_assoc]
  rfl

/-- The pass once a unit is entered. -/
def entered (context : Context) (node : Node) (place : Path) (pass : Pass) : Pass :=
  { pass with
    notes := pass.notes ++ [.including node.line place.toText (context.stack.length + 1)] }

end Render

/-- Rendering goes as deep as there is room, and counts down nothing else. -/
theorem Node.render_room (context : Context) (node : Node) :
    node.render context.room context = (node.plan context context.follow).text := by
  by_cases below : context.stack.length < context.settings.maxIncludeDepth
  · obtain ⟨depth, room⟩ : ∃ depth, context.room = depth + 1 :=
      ⟨context.room - 1, by unfold Context.room; omega⟩
    have inside (place : Path) : (context.enter place).room = depth := by
      simp only [Context.room, Context.enter, List.length_cons] at room ⊢
      omega
    have same : Render.inclusion (some (Node.render depth)) context = context.follow := by
      funext node
      rw [Context.follow, Render.inclusion_eq, Render.inclusion_eq]
      simp only [if_pos below, inside]
    rw [room, Node.render, same]
  · have none : context.room = 0 := by unfold Context.room; omega
    rw [none, Node.render, Context.follow, if_neg below]

structure Moment where
  context : Context
  node : Node
  pass : Pass

namespace Moment

variable {start moment next : Moment} {text : Text} {after : Pass} {fault : Fault}

def run (moment : Moment) : EStateM.Result Fault Pass Text :=
  moment.node.render moment.context.room moment.context moment.pass

/-- The moment at which a unit that the node includes is rendered. -/
def inside (moment : Moment) (place : Path) (source : Text) (pass : Pass) : Moment where
  context := moment.context.enter place
  node := moment.context.parse source
  pass := Render.entered moment.context moment.node place pass

/-- The calls that a moment makes: one for each node it has rendered, when those in front are done,
and one for the unit that it includes, if that is not open yet and there is room for it. -/
inductive Calls : Moment → Moment → Prop where
  | child {moment : Moment} {before later : List Node} {child : Node} {said : List Text} {pass : Pass}
      (rendered : moment.node.rendered = before ++ child :: later)
      (ran : moment.context.texts before moment.pass = .ok said pass) :
      Calls moment ⟨moment.context, child, pass⟩
  | unit {moment : Moment} {place : Path} {source : Text} {pass : Pass}
      (includes : moment.node.kind = .inclusion)
      (located : Render.located moment.context moment.node moment.pass = .ok (place, source) pass)
      (closed : ¬moment.context.Open place)
      (room : moment.context.stack.length < moment.context.settings.maxIncludeDepth) :
      Calls moment (moment.inside place source pass)

/-- The moments that a run goes through. -/
abbrev Reaches : Moment → Moment → Prop :=
  Relation.ReflTransGen Calls

end Moment

/-! Calls come to an end. -/

namespace Node

theorem mem_namedChildren {node child : Node} (member : child ∈ node.namedChildren) :
    child ∈ node.children :=
  (List.mem_filter.1 member).1

theorem mem_of_namedChild {node child : Node} {index : Nat}
    (found : node.namedChild? index = some child) : child ∈ node.children :=
  mem_namedChildren (List.mem_of_getElem? found)

theorem mem_of_find {node child : Node} {kind : Kind} (found : node.find? kind = some child) :
    child ∈ node.children :=
  mem_namedChildren (List.mem_of_find?_eq_some found)

theorem mem_clauseChildren {branches : List Node} {child : Node}
    (member : child ∈ clauseChildren branches) :
    ∃ branch ∈ branches, child ∈ branch.children := by
  induction branches with
  | nil => cases member
  | cons branch rest ih =>
    have later (inside : child ∈ clauseChildren rest) :
        ∃ other ∈ branch :: rest, child ∈ other.children := by
      obtain ⟨other, listed, found⟩ := ih inside
      exact ⟨other, List.mem_cons_of_mem _ listed, found⟩
    rw [clauseChildren] at member
    split at member
    · cases first : branch.namedChild? 0 with
      | none => simp [first] at member
      | some test =>
        cases second : branch.namedChild? 1 with
        | none => simp [first, second] at member
        | some body =>
          simp only [first, second, List.mem_cons] at member
          rcases member with rfl | rfl | inside
          · exact ⟨branch, List.mem_cons_self, mem_of_namedChild first⟩
          · exact ⟨branch, List.mem_cons_self, mem_of_namedChild second⟩
          · exact later inside
    · cases first : branch.namedChild? 0 with
      | none => simp [first] at member
      | some body =>
        simp only [first, List.mem_cons] at member
        rcases member with rfl | inside
        · exact ⟨branch, List.mem_cons_self, mem_of_namedChild first⟩
        · exact later inside
    · cases member

theorem mem_operands {node child : Node} (member : child ∈ node.operands) :
    child ∈ node.children := by
  unfold operands at member
  split at member
  · next left right first second =>
    simp only [List.mem_cons, List.not_mem_nil, or_false] at member
    rcases member with rfl | rfl
    · exact mem_of_namedChild first
    · exact mem_of_namedChild second
  · cases member

theorem of_mem_conditionalChildren {node test body child : Node} (first : node.namedChild? 0 = some test)
    (second : node.namedChild? 1 = some body) (member : child ∈ node.conditionalChildren) :
    child = test ∨ child = body ∨ child ∈ clauseChildren (node.namedChildren.drop 2) := by
  simp only [conditionalChildren, first, second] at member
  rcases List.mem_append.1 member with own | others
  · split at own <;> simp_all
  · exact .inr (.inr others)

theorem mem_conditionalChildren {node child : Node} (member : child ∈ node.conditionalChildren) :
    child ∈ node.children ∨ ∃ clause ∈ node.children, child ∈ clause.children := by
  have whole := member
  unfold conditionalChildren at whole
  split at whole
  · next test body first second =>
    rcases of_mem_conditionalChildren first second member with rfl | rfl | others
    · exact .inl (mem_of_namedChild first)
    · exact .inl (mem_of_namedChild second)
    · obtain ⟨clause, listed, inside⟩ := mem_clauseChildren others
      exact .inr ⟨clause, mem_namedChildren (List.mem_of_mem_drop listed), inside⟩
  · cases whole

/-- What is rendered for a node stands below it, or below one of the clauses it has. -/
theorem mem_rendered {node child : Node} (member : child ∈ node.rendered) :
    child ∈ node.children ∨ ∃ clause ∈ node.children, child ∈ clause.children := by
  unfold rendered at member
  split at member
  iterate 3 exact .inl member
  · exact mem_conditionalChildren member
  · exact .inl (List.mem_of_getElem? (Option.mem_toList.1 member))
  · exact .inl (mem_of_namedChild (Option.mem_toList.1 member))
  iterate 3 exact .inl (mem_operands member)
  · unfold ruleChildren at member
    split at member
    · exact .inl (mem_of_find (Option.mem_toList.1 member))
    · cases member
  · exact .inl (mem_of_find (Option.mem_toList.1 member))
  · cases member

theorem sizeOf_lt_of_mem_rendered {node child : Node} (member : child ∈ node.rendered) :
    sizeOf child < sizeOf node := by
  rcases mem_rendered member with inside | ⟨clause, listed, inside⟩
  · exact sizeOf_lt_of_mem_children inside
  · exact (sizeOf_lt_of_mem_children inside).trans (sizeOf_lt_of_mem_children listed)

end Node

namespace Render

/-- Where two actions fail, the first does, or the second behind it. -/
theorem of_bind_error {α β : Type} {action : Render α} {next : α → Render β} {pass after : Pass}
    {fault : Fault} (run : (action >>= next) pass = .error fault after) :
    action pass = .error fault after ∨
      ∃ first middle, action pass = .ok first middle ∧ next first middle = .error fault after := by
  simp only [bind, EStateM.bind] at run
  split at run
  · next first middle done => exact .inr ⟨first, middle, done, run⟩
  · next other middle done =>
    cases run
    exact .inl done

end Render

namespace Moment

variable {start moment next : Moment} {text : Text} {after : Pass} {fault : Fault}

/-- How far a moment is from the end: the room that is left, then the tree that is left. -/
noncomputable def rank (moment : Moment) : Nat × Nat :=
  (moment.context.room, sizeOf moment.node)

theorem Calls.rank_lt (calls : Calls moment next) :
    Prod.Lex (· < ·) (· < ·) next.rank moment.rank := by
  cases calls with
  | child rendered ran =>
    apply Prod.Lex.right
    apply Node.sizeOf_lt_of_mem_rendered
    rw [rendered]
    exact List.mem_append_right _ List.mem_cons_self
  | unit includes located closed room =>
    apply Prod.Lex.left
    simp only [inside, Context.room, Context.enter, List.length_cons]
    omega

theorem wellFounded_calls : WellFounded fun next moment : Moment => Calls moment next :=
  Subrelation.wf Calls.rank_lt
    (InvImage.wf rank (Prod.lex Nat.lt_wfRel Nat.lt_wfRel).wf)

/-! One moment, opened. -/

theorem run_eq_finish (other : moment.node.kind ≠ .inclusion) :
    moment.run = (moment.context.texts moment.node.rendered >>=
      moment.node.finish moment.context) moment.pass := by
  rw [run, Node.render_room, Node.plan_text_eq_finish other]
  rfl

theorem run_eq_inclusion (includes : moment.node.kind = .inclusion) :
    moment.run = moment.context.follow moment.node moment.pass := by
  rw [run, Node.render_room, Node.plan_text]
  simp only [Render.node, includes]

theorem rendered_of_inclusion (includes : moment.node.kind = .inclusion) :
    moment.node.rendered = [] := by
  simp only [Node.rendered, includes]

/-- A call goes on in the same surroundings, or inside the unit that the node includes. -/
theorem Calls.context (calls : Calls moment next) :
    (moment.node.kind ≠ .inclusion ∧ next.context = moment.context) ∨
      (moment.node.kind = .inclusion ∧ ∃ place, next.context = moment.context.enter place) := by
  cases calls with
  | child rendered ran =>
    refine .inl ⟨fun includes => ?_, rfl⟩
    rw [rendered_of_inclusion includes] at rendered
    simp at rendered
  | unit includes located closed room => exact .inr ⟨includes, _, rfl⟩

theorem Reaches.context (reached : Reaches moment next) :
    next.context.root = moment.context.root ∧ next.context.settings = moment.context.settings ∧
      next.context.parse = moment.context.parse ∧ moment.context.stack <:+ next.context.stack := by
  induction reached with
  | refl => exact ⟨rfl, rfl, rfl, List.suffix_refl _⟩
  | tail before calls ih =>
    rcases calls.context with ⟨_, same⟩ | ⟨_, place, same⟩
    · rw [same]
      exact ih
    · rw [same]
      exact ⟨ih.1, ih.2.1, ih.2.2.1, ih.2.2.2.trans (List.suffix_cons place _)⟩

theorem texts_nil (moment : Moment) : moment.context.texts [] moment.pass = .ok [] moment.pass :=
  rfl

theorem run_of_bare (bare : moment.node.rendered = []) (other : moment.node.kind ≠ .inclusion) :
    moment.run = moment.node.finish moment.context [] moment.pass := by
  rw [run_eq_finish other, bare]
  exact Render.bind_ok (texts_nil moment)

/-- Nodes in sequence: those in front, then one of them, then those behind it. -/
theorem texts_split {context : Context} {before later : List Node} {child : Node} {said : List Text}
    {pass after : Pass} (ran : context.texts (before ++ child :: later) pass = .ok said after) :
    ∃ first text more middle next, said = first ++ text :: more ∧
      context.texts before pass = .ok first middle ∧
      (Moment.mk context child middle).run = .ok text next ∧
      context.texts later next = .ok more after := by
  induction before generalizing pass said with
  | nil =>
    obtain ⟨text, next, own, rest⟩ := Render.of_bind_ok ran
    obtain ⟨more, last, others, done⟩ := Render.of_bind_ok rest
    cases done
    exact ⟨[], text, more, pass, next, rfl, rfl, by rw [run, Node.render_room]; exact own, others⟩
  | cons first before ih =>
    obtain ⟨text, next, own, rest⟩ := Render.of_bind_ok ran
    obtain ⟨more, last, others, done⟩ := Render.of_bind_ok rest
    cases done
    obtain ⟨front, inner, behind, middle, beyond, rfl, ran, called, left⟩ := ih others
    refine ⟨text :: front, inner, behind, middle, beyond, rfl, ?_, called, left⟩
    exact (Render.bind_ok own).trans (Render.bind_ok ran)

theorem texts_append {context : Context} {before later : List Node} {first more : List Text}
    {pass middle after : Pass} (front : context.texts before pass = .ok first middle)
    (rest : context.texts later middle = .ok more after) :
    context.texts (before ++ later) pass = .ok (first ++ more) after := by
  induction before generalizing pass first with
  | nil =>
    cases front
    exact rest
  | cons child before ih =>
    obtain ⟨text, next, own, others⟩ := Render.of_bind_ok front
    obtain ⟨front, last, ran, done⟩ := Render.of_bind_ok others
    cases done
    exact (Render.bind_ok own).trans (Render.bind_ok (ih ran))

theorem texts_single {context : Context} {child : Node} {pass after : Pass} {text : Text}
    (ran : (Moment.mk context child pass).run = .ok text after) :
    context.texts [child] pass = .ok [text] after := by
  rw [run, Node.render_room] at ran
  exact Render.bind_ok ran

/-- Where nodes in sequence fail, one of them does, when those in front of it are done. -/
theorem texts_fault {context : Context} {nodes : List Node} {pass after : Pass}
    (ran : context.texts nodes pass = .error fault after) :
    ∃ before child later said middle, nodes = before ++ child :: later ∧
      context.texts before pass = .ok said middle ∧
      (Moment.mk context child middle).run = .error fault after := by
  induction nodes generalizing pass with
  | nil => cases ran
  | cons first rest ih =>
    rcases Render.of_bind_error ran with own | ⟨text, next, own, others⟩
    · exact ⟨[], first, rest, [], pass, rfl, rfl, by rw [run, Node.render_room]; exact own⟩
    · rcases Render.of_bind_error others with failed | ⟨more, last, ran, done⟩
      · obtain ⟨before, child, later, said, middle, rfl, ran, failed⟩ := ih failed
        exact ⟨first :: before, child, later, text :: said, middle, rfl,
          (Render.bind_ok own).trans (Render.bind_ok ran), failed⟩
      · cases done

/-- The texts of the nodes that a moment has rendered are those of its calls. -/
theorem called_of_mem {said : List Text} {word : Text}
    (ran : moment.context.texts moment.node.rendered moment.pass = .ok said after)
    (member : word ∈ said) : ∃ next last, Calls moment next ∧ next.run = .ok word last := by
  suffices each : ∀ {nodes before : List Node} {first said : List Text} {pass : Pass},
      moment.node.rendered = before ++ nodes →
      moment.context.texts before moment.pass = .ok first pass →
      moment.context.texts nodes pass = .ok said after → word ∈ said →
      ∃ next last, Calls moment next ∧ next.run = .ok word last from
    @each _ [] _ _ _ rfl (texts_nil moment) ran member
  intro nodes
  induction nodes with
  | nil =>
    intro before first said pass _ _ ran member
    cases ran
    cases member
  | cons child rest ih =>
    intro before first said pass split front ran member
    obtain ⟨_, text, more, _, middle, rfl, begin, own, others⟩ := @texts_split _ [] _ _ _ _ _ ran
    cases begin
    rcases List.mem_cons.1 member with rfl | later
    · exact ⟨_, middle, .child split front, own⟩
    · exact ih (by simpa using split) (texts_append front (texts_single own)) others later

/-! A node that includes a unit, once the unit is found. -/

section

variable {place : Path} {source : Text} {pass : Pass} (includes : moment.node.kind = .inclusion)
  (located : Render.located moment.context moment.node moment.pass = .ok (place, source) pass)

include includes located

theorem run_of_open (already : moment.context.Open place) :
    moment.run = .error (.inclusionCycle ((moment.context.chain place).map Path.toText)) pass := by
  rw [run_eq_inclusion includes, Context.follow, Render.inclusion_eq, Render.bind_ok located]
  simp only [if_pos already]
  rfl

theorem run_of_full (closed : ¬moment.context.Open place)
    (full : ¬moment.context.stack.length < moment.context.settings.maxIncludeDepth) :
    moment.run =
      .error (.depthExceeded place.toText moment.context.settings.maxIncludeDepth) pass := by
  rw [run_eq_inclusion includes, Context.follow, Render.inclusion_eq, Render.bind_ok located]
  simp only [if_neg closed, if_neg full]
  rfl

theorem run_of_room (closed : ¬moment.context.Open place)
    (room : moment.context.stack.length < moment.context.settings.maxIncludeDepth) :
    moment.run =
      match (moment.inside place source pass).run with
      | .ok text after => .ok (Render.included place text) after
      | .error fault after => .error fault after := by
  rw [run_eq_inclusion includes, Context.follow, Render.inclusion_eq, Render.bind_ok located]
  simp only [if_neg closed, if_pos room]
  have entered : Render.note (.including moment.node.line place.toText
      (moment.context.stack.length + 1)) pass =
      .ok () (Render.entered moment.context moment.node place pass) := rfl
  rw [Render.bind_ok entered]
  cases inner : (moment.inside place source pass).run with
  | ok text after => exact Render.bind_ok inner
  | error fault after => exact Render.bind_error inner

end

/-- What a moment that succeeds has done: the first phase and the second, or the unit it includes. -/
theorem of_run_ok (ran : moment.run = .ok text after) :
    (moment.node.kind ≠ .inclusion ∧ ∃ said middle,
      moment.context.texts moment.node.rendered moment.pass = .ok said middle ∧
      moment.node.finish moment.context said middle = .ok text after) ∨
    (moment.node.kind = .inclusion ∧ ∃ place source middle inner,
      Render.located moment.context moment.node moment.pass = .ok (place, source) middle ∧
      ¬moment.context.Open place ∧
      moment.context.stack.length < moment.context.settings.maxIncludeDepth ∧
      (moment.inside place source middle).run = .ok inner after) := by
  by_cases includes : moment.node.kind = .inclusion
  · refine .inr ⟨includes, ?_⟩
    have opened := ran
    rw [run_eq_inclusion includes, Context.follow, Render.inclusion_eq] at opened
    obtain ⟨⟨place, source⟩, middle, located, _⟩ := Render.of_bind_ok opened
    by_cases already : moment.context.Open place
    · rw [run_of_open includes located already] at ran
      cases ran
    by_cases room : moment.context.stack.length < moment.context.settings.maxIncludeDepth
    · rw [run_of_room includes located already room] at ran
      cases inner : (moment.inside place source middle).run with
      | ok said last =>
        rw [inner] at ran
        cases ran
        exact ⟨place, source, middle, said, located, already, room, inner⟩
      | error fault last =>
        rw [inner] at ran
        cases ran
    · rw [run_of_full includes located already room] at ran
      cases ran
  · rw [run_eq_finish includes] at ran
    exact .inl ⟨includes, Render.of_bind_ok ran⟩

/-- The four ways a moment raises a fault by itself, and no call of it does. -/
inductive Raises (moment : Moment) : Fault → Prop where
  | finish {said : List Text} {middle after : Pass} {fault : Fault}
      (other : moment.node.kind ≠ .inclusion)
      (ran : moment.context.texts moment.node.rendered moment.pass = .ok said middle)
      (failed : moment.node.finish moment.context said middle = .error fault after) :
      Raises moment fault
  | located {fault : Fault} {after : Pass} (includes : moment.node.kind = .inclusion)
      (failed : Render.located moment.context moment.node moment.pass = .error fault after) :
      Raises moment fault
  | cycle {place : Path} {source : Text} {middle : Pass} (includes : moment.node.kind = .inclusion)
      (located : Render.located moment.context moment.node moment.pass = .ok (place, source) middle)
      (already : moment.context.Open place) :
      Raises moment (.inclusionCycle ((moment.context.chain place).map Path.toText))
  | depth {place : Path} {source : Text} {middle : Pass} (includes : moment.node.kind = .inclusion)
      (located : Render.located moment.context moment.node moment.pass = .ok (place, source) middle)
      (closed : ¬moment.context.Open place)
      (full : ¬moment.context.stack.length < moment.context.settings.maxIncludeDepth) :
      Raises moment (.depthExceeded place.toText moment.context.settings.maxIncludeDepth)

theorem of_run_error (ran : moment.run = .error fault after) :
    Raises moment fault ∨ ∃ next, Calls moment next ∧ next.run = .error fault after := by
  by_cases includes : moment.node.kind = .inclusion
  · have opened := ran
    rw [run_eq_inclusion includes, Context.follow, Render.inclusion_eq] at opened
    rcases Render.of_bind_error opened with failed | ⟨⟨place, source⟩, middle, located, _⟩
    · exact .inl (.located includes failed)
    by_cases already : moment.context.Open place
    · rw [run_of_open includes located already] at ran
      cases ran
      exact .inl (.cycle includes located already)
    by_cases room : moment.context.stack.length < moment.context.settings.maxIncludeDepth
    · rw [run_of_room includes located already room] at ran
      cases inner : (moment.inside place source middle).run with
      | ok said last =>
        rw [inner] at ran
        cases ran
      | error other last =>
        rw [inner] at ran
        cases ran
        exact .inr ⟨_, .unit includes located already room, inner⟩
    · rw [run_of_full includes located already room] at ran
      cases ran
      exact .inl (.depth includes located already room)
  · rw [run_eq_finish includes] at ran
    rcases Render.of_bind_error ran with failed | ⟨said, middle, ran, failed⟩
    · obtain ⟨before, child, later, said, middle, rendered, ran, failed⟩ := texts_fault failed
      exact .inr ⟨_, .child rendered ran, failed⟩
    · exact .inl (.finish includes ran failed)

/-- A run that fails has reached a moment that raises the fault by itself. -/
theorem raised_of_run_error (ran : moment.run = .error fault after) :
    ∃ raiser, Reaches moment raiser ∧ Raises raiser fault := by
  induction moment using wellFounded_calls.induction with
  | _ moment ih =>
    rcases of_run_error ran with own | ⟨next, calls, failed⟩
    · exact ⟨moment, .refl, own⟩
    · obtain ⟨raiser, reached, raises⟩ := ih next calls failed
      exact ⟨raiser, .head calls reached, raises⟩

/-! What every moment keeps, a run keeps. -/

/-- The pass changes by `Keeps` only in each step that a run takes by itself. -/
structure Steady (start : Moment) (Keeps : Pass → Pass → Prop) : Prop where
  refl : ∀ pass, Keeps pass pass
  trans : ∀ {first second third}, Keeps first second → Keeps second third → Keeps first third
  finish : ∀ {moment : Moment} {said : List Text} {before after : Pass} {text : Text},
    Reaches start moment → moment.node.kind ≠ .inclusion →
    moment.node.finish moment.context said before = .ok text after → Keeps before after
  enter : ∀ {moment : Moment} {place : Path} {source : Text} {middle : Pass},
    Reaches start moment → moment.node.kind = .inclusion →
    Render.located moment.context moment.node moment.pass = .ok (place, source) middle →
    Keeps moment.pass (Render.entered moment.context moment.node place middle)

namespace Steady

variable {Keeps : Pass → Pass → Prop}

/-- Several of the nodes that a moment has rendered, if each of its calls keeps the pass. -/
theorem texts (steady : Steady start Keeps) {before nodes later : List Node} {first said : List Text}
    {pass : Pass}
    (each : ∀ {next text after}, Calls moment next → next.run = .ok text after →
      Keeps next.pass after)
    (split : moment.node.rendered = before ++ (nodes ++ later))
    (front : moment.context.texts before moment.pass = .ok first pass)
    (ran : moment.context.texts nodes pass = .ok said after) : Keeps pass after := by
  induction nodes generalizing before first said pass with
  | nil =>
    cases ran
    exact steady.refl _
  | cons child rest ih =>
    obtain ⟨_, text, more, _, middle, _, begin, own, others⟩ := @texts_split _ [] _ _ _ _ _ ran
    cases begin
    have kept : Keeps pass middle := each (.child split front) own
    exact steady.trans kept (ih (by simpa using split) (texts_append front (texts_single own)) others)

theorem run (steady : Steady start Keeps) (reached : Reaches start moment)
    (ran : moment.run = .ok text after) : Keeps moment.pass after := by
  induction moment using wellFounded_calls.induction generalizing text after with
  | _ moment ih =>
    rcases of_run_ok ran with ⟨other, said, middle, first, second⟩ |
      ⟨includes, place, source, middle, inner, located, closed, room, ran⟩
    · apply steady.trans _ (steady.finish reached other second)
      apply steady.texts _ (List.append_nil _).symm (texts_nil moment) first
      intro next text after calls ran
      exact ih next calls (reached.tail calls) ran
    · have calls := Calls.unit includes located closed room
      exact steady.trans (steady.enter reached includes located) (ih _ calls (reached.tail calls) ran)

/-- The pass is kept between the two phases of a moment: by the first, and by what comes after it. -/
theorem between (steady : Steady start Keeps) (reached : Reaches start moment) {said : List Text}
    {middle : Pass} (first : moment.context.texts moment.node.rendered moment.pass = .ok said middle)
    (ran : moment.run = .ok text after) : Keeps moment.pass middle ∧ Keeps middle after := by
  constructor
  · apply steady.texts _ (List.append_nil _).symm (texts_nil moment) first
    intro next text after calls ran
    exact steady.run (reached.tail calls) ran
  · rcases of_run_ok ran with ⟨other, _, _, again, second⟩ | ⟨includes, _⟩
    · cases first.symm.trans again
      exact steady.finish reached other second
    · rw [rendered_of_inclusion includes, texts_nil] at first
      cases first
      exact steady.run reached ran

/-- The pass is kept up to every call, whatever comes of the moment that makes it. -/
theorem upTo (steady : Steady start Keeps) (reached : Reaches start moment) :
    Keeps start.pass moment.pass := by
  induction reached with
  | refl => exact steady.refl _
  | @tail moment next before calls ih =>
    apply steady.trans ih
    cases calls with
    | child rendered front =>
      apply steady.texts _ rendered (texts_nil moment) front
      intro next text after calls ran
      exact steady.run (before.tail calls) ran
    | unit includes located => exact steady.enter before includes located

/-- A call of a moment that succeeds has succeeded, and the pass is kept behind it. -/
theorem call (steady : Steady start Keeps) (reached : Reaches start moment)
    (calls : Calls moment next) (ran : moment.run = .ok text after) :
    ∃ said last, next.run = .ok said last ∧ Keeps last after := by
  have each {next : Moment} {text : Text} {after : Pass} (calls : Calls moment next)
      (ran : next.run = .ok text after) : Keeps next.pass after :=
    steady.run (reached.tail calls) ran
  rcases of_run_ok ran with ⟨other, said, middle, first, second⟩ |
    ⟨includes, place, source, middle, inner, located, _, _, ran⟩
  · cases calls with
    | @child before later child said pass rendered front =>
      rw [rendered] at first
      obtain ⟨_, text, more, pass, next, rfl, same, own, others⟩ := texts_split first
      cases front.symm.trans same
      refine ⟨text, next, own, steady.trans ?_ (steady.finish reached other second)⟩
      have split : moment.node.rendered = before ++ [child] ++ (later ++ []) := by
        simpa using rendered
      exact steady.texts each split (texts_append front (texts_single own)) others
    | unit includes => exact absurd includes other
  · cases calls with
    | child rendered =>
      rw [rendered_of_inclusion includes] at rendered
      simp at rendered
    | unit _ same =>
      cases located.symm.trans same
      exact ⟨inner, after, ran, steady.refl _⟩

/-- Every moment of a run that succeeds has succeeded, and the pass is kept behind it. -/
theorem onward (steady : Steady start Keeps) (ran : start.run = .ok text after)
    (reached : Reaches start moment) : ∃ said last, moment.run = .ok said last ∧ Keeps last after := by
  induction reached with
  | refl => exact ⟨text, after, ran, steady.refl _⟩
  | tail before calls ih =>
    obtain ⟨said, last, ran, down⟩ := ih
    obtain ⟨inner, final, called, out⟩ := steady.call before calls ran
    exact ⟨inner, final, called, steady.trans out down⟩

end Steady

end Moment

end BmakeZig
