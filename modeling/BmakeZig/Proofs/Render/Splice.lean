import BmakeZig.Compile
import BmakeZig.Proofs.Render.Change
import BmakeZig.Proofs.Render.Phrase
import BmakeZig.Units.Library

/-! Included units as part of the text around them. Rendering never reads the records of the pass, and
it asks for the units that are open only where another one is included. So a unit that includes
nothing is rendered as its statements would be in the place of the node that includes it; what tells
the two apart is the line that names the unit, and warnings over the path of the node. -/
namespace BmakeZig

/-! Nothing reads the records. -/

namespace Render

variable {context : Context} {node : Node}

theorem unread_setEnvironment (environment : Environment) : Unread (setEnvironment environment) :=
  unread_modify fun _ _ _ => rfl

theorem unread_assign (name value : Text) : Unread (assign name value) :=
  (unread_note _).bind fun _ => unread_environment.bind fun _ => unread_setEnvironment _

theorem unread_append (name value separator : Text) : Unread (append name value separator) :=
  unread_environment.bind fun _ => (unread_note _).bind fun _ => unread_setEnvironment _

theorem unread_store (settings : Settings) (name : Text) (line : Nat) (appends expands : Bool)
    (written : List Fragment) : Unread (store settings name line appends expands written) := by
  unfold store
  dsimp only
  split
  on_goal 1 => refine unread_environment.bind fun _ => (modest_noted _).unread.bind ?_
  on_goal 2 => refine (unread_pure _).bind ?_
  all_goals
    refine fun kept => unread_environment.bind fun environment => ?_
    split
    · refine unread_environment.bind fun before => (unread_append _ _ _).bind fun _ => ?_
      split <;> exact unread_pure _
    · exact (unread_assign _ _).bind fun _ => unread_pure _

theorem unread_assignment (settings : Settings) (node : Node) (appends expands : Bool) :
    Unread (assignment settings node appends expands) := by
  rw [assignment_eq]
  refine (modest_require _ _ _).unread.bind fun name => ?_
  exact (modest_valueFragments node).unread.bind fun written => unread_store _ _ _ _ _ written

theorem unread_undef (node : Node) : Unread (undef node) := by
  refine (modest_require _ _ _).unread.bind fun name => ?_
  refine Unread.bind ?_ fun _ => unread_pure _
  exact unread_environment.bind fun _ => unread_setEnvironment _

theorem unread_search (context : Context) (node : Node) : Unread (search context node) := by
  refine (modest_require _ _ _).unread.bind fun path => ?_
  refine (modest_staticPath context path).unread.bind fun directory => ?_
  exact (unread_note _).bind fun _ => (unread_modify fun _ _ _ => rfl).bind fun _ => unread_pure _

theorem unread_closeRule (node : Node) (body : Text) : Unread (closeRule node body) := by
  refine (modest_require _ _ _).unread.bind fun target => ?_
  unfold aimed
  split
  · exact unread_pure _
  · exact (unread_modify fun _ _ _ => rfl).bind fun _ => unread_pure _
  · exact unread_throw _

theorem unread_finish (other : node.kind ≠ .inclusion) (said : List Text) :
    Unread (node.finish context said) := by
  by_cases still : node.kind.isActive = false
  · exact (Node.modest_finish still said).unread
  · unfold Node.finish
    cases kind : node.kind with
    | inclusion => exact absurd kind other
    | rule => exact unread_closeRule node _
    | assignment appends expands =>
      simp only [Render.node, kind]
      exact unread_assignment context.settings node appends expands
    | undef =>
      simp only [Render.node, kind]
      exact unread_undef node
    | search =>
      simp only [Render.node, kind]
      exact unread_search context node
    | _ => simp [kind, Kind.isActive] at still

/-- What becomes of a path once the places for it are known. -/
def settled (requested : Text) (located : Located) : Render (Path × Text) := do
  noted ⟨(), located.notes⟩
  match located.found with
  | some found => return found
  | none => throw (.unitNotFound requested located.reason)

theorem unread_settled (requested : Text) (located : Located) : Unread (settled requested located) := by
  refine (modest_noted _).unread.bind fun _ => ?_
  split
  · exact unread_pure _
  · exact unread_throw _

/-- Which places are searched depends on the directories in the pass, not on its records. -/
theorem unread_findUnit (context : Context) (requested : Text) :
    Unread (findUnit context requested) :=
  fun warnings notes pass => unread_settled requested
    (locate context.load (searched context pass.searchDirs requested)) warnings notes pass

theorem unread_located (context : Context) (node : Node) : Unread (located context node) := by
  refine (modest_require _ _ _).unread.bind fun path => ?_
  exact (modest_staticPath context path).unread.bind fun requested => unread_findUnit context requested

theorem unread_texts {parts : List Part} (each : ∀ part ∈ parts, Unread part.text) :
    Unread (texts parts) := by
  induction parts with
  | nil => exact unread_pure []
  | cons part rest ih =>
    obtain ⟨first, others⟩ := List.forall_mem_cons.1 each
    exact first.bind fun _ => (ih others).bind fun _ => unread_pure _

theorem texts_congr {nodes : List Node} {plan other : Node → Part}
    (same : ∀ node ∈ nodes, (plan node).text = (other node).text) :
    texts (nodes.map plan) = texts (nodes.map other) := by
  induction nodes with
  | nil => rfl
  | cons node rest ih =>
    obtain ⟨first, others⟩ := List.forall_mem_cons.1 same
    rw [List.map_cons, List.map_cons, texts, texts, first, ih others]

end Render

/-- Rendering a node, with all that it includes, does not depend on the records of the pass. -/
theorem Node.unread_text (context : Context) (node : Node) :
    Render.Unread (node.plan context context.follow).text := by
  by_cases includes : node.kind = .inclusion
  · rw [plan_text]
    simp only [Render.node, includes]
    rw [Context.follow, Render.inclusion_eq]
    refine (Render.unread_located context node).bind fun unit => ?_
    by_cases already : context.Open unit.1
    · simp only [if_pos already]
      exact Render.unread_throw _
    by_cases room : context.stack.length < context.settings.maxIncludeDepth
    · simp only [if_neg already, if_pos room]
      refine (Render.unread_note _).bind fun _ => Render.Unread.bind ?_ fun _ => Render.unread_pure _
      rw [render_room]
      exact unread_text (context.enter unit.1) (context.parse unit.2)
    · simp only [if_neg already, if_neg room]
      exact Render.unread_throw _
  · rw [plan_text_eq_finish includes]
    refine (Render.unread_texts fun part member => ?_).bind (Render.unread_finish includes)
    obtain ⟨child, listed, rfl⟩ := List.mem_map.1 member
    exact unread_text context child
termination_by (context.room, sizeOf node)
decreasing_by
  · apply Prod.Lex.left
    simp only [Context.room, Context.enter, List.length_cons]
    omega
  · exact Prod.Lex.right _ (sizeOf_lt_of_mem_rendered listed)

theorem Context.unread_texts (context : Context) (nodes : List Node) :
    Render.Unread (context.texts nodes) := by
  refine Render.unread_texts fun part member => ?_
  obtain ⟨node, _, rfl⟩ := List.mem_map.1 member
  exact node.unread_text context

/-! Where nothing is included, nothing asks for the units that are open. -/

namespace Node

variable {context : Context} {place : Path} {node : Node}

/-- No unit is included by the node or below it. -/
def IsPlain (node : Node) : Prop :=
  ∀ inner ∈ node.all, inner.kind ≠ .inclusion

theorem IsPlain.child {child : Node} (plain : node.IsPlain) (member : child ∈ node.children) :
    child.IsPlain :=
  fun inner inside => plain inner (mem_all.2 (.inr ⟨child, member, inside⟩))

theorem IsPlain.rendered {child : Node} (plain : node.IsPlain) (member : child ∈ node.rendered) :
    child.IsPlain := by
  rcases mem_rendered member with inside | ⟨clause, listed, inside⟩
  · exact plain.child inside
  · exact (plain.child listed).child inside

theorem finish_enter (context : Context) (place : Path) (node : Node) :
    node.finish (context.enter place) = node.finish context :=
  rfl

theorem IsPlain.text_enter (plain : node.IsPlain) :
    (node.plan (context.enter place) (context.enter place).follow).text =
      (node.plan context context.follow).text := by
  induction size : sizeOf node using Nat.strongRecOn generalizing node with
  | _ _ ih =>
    have other : node.kind ≠ .inclusion := plain node (mem_all.2 (.inl rfl))
    have same : Render.texts (node.rendered.map (plan (context.enter place) (context.enter place).follow)) =
        Render.texts (node.rendered.map (plan context context.follow)) := by
      apply Render.texts_congr
      intro child member
      exact ih (sizeOf child) (size ▸ sizeOf_lt_of_mem_rendered member) (plain.rendered member) rfl
    rw [plan_text_eq_finish other, plan_text_eq_finish other, same, finish_enter]

end Node

/-- The statements of a unit, rendered inside it or outside. -/
theorem Context.texts_enter {context : Context} {place : Path} {nodes : List Node}
    (plain : ∀ node ∈ nodes, node.IsPlain) :
    (context.enter place).texts nodes = context.texts nodes :=
  Render.texts_congr fun node member => (plain node member).text_enter

/-! The warnings over the path of a node. -/

namespace Node

/-- A part of a value that is neither text nor a reference, and taken as it stands. -/
def isStray (node : Node) : Bool :=
  !node.named && match node.kind with
    | .literal | .expansion _ => false
    | _ => true

/-- The warning over a node that is taken as it stands. -/
def unruled (node : Node) : Warning :=
  ⟨node.line, "no rendering rule for unnamed '".toList ++ node.kind.name ++
    "' node, emitting its text verbatim".toList⟩

def strays (nodes : List Node) : List Warning :=
  (nodes.filter isStray).map unruled

/-- The warnings over the path of a node that has one. -/
def pathStrays (node : Node) : List Warning :=
  (node.find? .path).toList.flatMap fun path => strays path.children

theorem strays_of_named {nodes : List Node} (named : ∀ node ∈ nodes, node.named = true) :
    strays nodes = [] := by
  simp only [strays, List.map_eq_nil_iff, List.filter_eq_nil_iff]
  intro node member
  simp [isStray, named node member]

end Node

namespace Render

variable {α β : Type} {context : Context} {node : Node}

/-- The action adds these warnings where it succeeds. -/
def Warns (action : Render α) (warnings : List Warning) : Prop :=
  ∀ pass value after, action pass = .ok value after → after.warnings = pass.warnings ++ warnings

theorem Warns.bind {action : Render α} {next : α → Render β} {first second : List Warning}
    (one : Warns action first) (two : ∀ value, Warns (next value) second) :
    Warns (action >>= next) (first ++ second) := by
  intro pass value after ran
  obtain ⟨found, middle, begun, ended⟩ := of_bind_ok ran
  rw [two found _ _ _ ended, one _ _ _ begun, List.append_assoc]

theorem Warns.bindCalm {action : Render α} {next : α → Render β} {warnings : List Warning}
    (one : Warns action warnings) (two : ∀ value, Warns (next value) []) :
    Warns (action >>= next) warnings :=
  List.append_nil warnings ▸ one.bind two

theorem warns_pure (value : α) : Warns (pure value) [] := by
  intro pass _ after ran
  cases ran
  exact (List.append_nil _).symm

theorem warns_throw (fault : Fault) (warnings : List Warning) :
    Warns (throw fault : Render α) warnings := by
  intro pass value after ran
  cases ran

theorem warns_require (node : Node) (expected : String) (found : Option α) :
    Warns (require node expected found) [] := by
  cases found with
  | none => exact warns_throw _ _
  | some value => exact warns_pure value

theorem warns_noted (noted : Noted α) : Warns (Render.noted noted) [] := by
  intro pass value after ran
  cases ran
  exact (List.append_nil _).symm

theorem warns_environment : Warns environment [] := by
  intro pass value after ran
  cases ran
  exact (List.append_nil _).symm

theorem warns_verbatim (node : Node) : Warns (verbatim node) [node.unruled] := by
  intro pass value after ran
  cases ran
  rfl

theorem warns_reference (node : Node) (mode : Mode) : Warns (reference node mode) [] := by
  unfold reference
  split
  · exact warns_throw _ _
  · exact (warns_require _ _ _).bindCalm fun _ => warns_pure _

theorem warns_childFragments (child : Node) : Warns (childFragments child) (Node.strays [child]) := by
  unfold childFragments
  split
  · next kind =>
    have ruled : Node.strays [child] = [] := by simp [Node.strays, Node.isStray, kind]
    rw [ruled]
    exact warns_pure _
  · next mode kind =>
    have ruled : Node.strays [child] = [] := by simp [Node.strays, Node.isStray, kind]
    rw [ruled]
    exact (warns_reference child mode).bindCalm fun _ => warns_pure _
  · next literal expansion =>
    split
    · exact warns_throw _ _
    · next unnamed =>
      have stray : child.isStray = true := by
        unfold Node.isStray
        cases kind : child.kind <;> simp_all
      have warned : Node.strays [child] = [child.unruled] := by simp [Node.strays, stray]
      rw [warned]
      exact (warns_verbatim child).bindCalm fun _ => warns_pure _

theorem warns_collect (nodes : List Node) : Warns (collect nodes) (Node.strays nodes) := by
  induction nodes with
  | nil => exact warns_pure _
  | cons child rest ih =>
    have split : Node.strays (child :: rest) = Node.strays [child] ++ Node.strays rest := by
      simp only [Node.strays, ← List.map_append, ← List.filter_append, List.singleton_append]
    rw [split]
    exact (warns_childFragments child).bind fun _ => ih.bindCalm fun _ => warns_pure _

theorem warns_fragments (other : ∀ mode, node.kind ≠ .expansion mode) :
    Warns (fragments node) (Node.strays node.children) := by
  refine Warns.bindCalm ?_ fun _ => warns_environment.bindCalm fun _ => warns_noted _
  rw [writtenFragments_of_kind other]
  split
  · next empty =>
    rw [List.isEmpty_iff.1 empty]
    exact warns_pure _
  · exact warns_collect node.children

theorem warns_findUnit (context : Context) (requested : Text) :
    Warns (findUnit context requested) [] := by
  intro pass value after ran
  obtain ⟨notes, run⟩ := findUnit_eq context requested pass
  rw [run] at ran
  split at ran
  · cases ran
    exact (List.append_nil _).symm
  · cases ran

/-- Looking for a unit warns of what is stray in the path, and of nothing else. -/
theorem warns_located (context : Context) (node : Node) :
    Warns (located context node) node.pathStrays := by
  unfold located Node.pathStrays
  cases found : node.find? .path with
  | none => exact warns_throw _ _
  | some path =>
    have kind : path.kind = .path := by simpa using List.find?_some found
    have other : ∀ mode, path.kind ≠ .expansion mode := by simp [kind]
    rw [require_some, pure_bind, Option.toList_some, List.flatMap_singleton]
    refine Warns.bindCalm ?_ fun requested => warns_findUnit context requested
    exact (warns_fragments other).bindCalm fun _ =>
      warns_environment.bindCalm fun _ => warns_noted _

end Render

/-- The reader of units leaves nothing stray in a path. -/
theorem Source.pathStrays_parse {source : Text} {node : Node} (member : node ∈ (parse source).all)
    (includes : node.kind = .inclusion) : node.pathStrays = [] := by
  unfold Node.pathStrays
  cases found : node.find? .path with
  | none => rfl
  | some path =>
    have kind : path.kind = .path := by simpa using List.find?_some found
    have fits : Fits path := by
      rcases fits_of_mem_all (fits_parse source) member with rfl | fits
      · cases includes
      · exact fits.children path (Node.mem_of_find found)
    have shape : Shape (.phrase .path) path := by
      have phrase := fits.phrase_of_kind (by rw [kind]; rfl)
      rwa [kind] at phrase
    rw [Option.toList_some, List.flatMap_singleton]
    apply Node.strays_of_named
    cases shape with
    | phrase _ pieces => exact fun child inside => (pieces child inside).isNamed

/-! A unit in the place of the node that includes it. -/

/-- Whether nodes of a kind are lists of statements. -/
def Kind.isList : Kind → Bool
  | .sourceFile | .body | .ruleBody => true
  | _ => false

theorem Context.texts_append_eq (context : Context) (before later : List Node) :
    context.texts (before ++ later) = do
      let first ← context.texts before
      let more ← context.texts later
      return first ++ more := by
  induction before with
  | nil => simp [texts]
  | cons node before ih =>
    have step (nodes : List Node) : context.texts (node :: nodes) = do
        let text ← (node.plan context context.follow).text
        return text :: (← context.texts nodes) := rfl
    rw [List.cons_append, step, step, ih]
    simp only [bind_assoc, pure_bind, List.cons_append]

namespace Moment

variable {context : Context} {root node : Node} {before later : List Node} {pass middle : Pass}
  {said : List Text}

/-- A list of statements is their texts, one below the other. -/
theorem run_of_list (listed : root.kind.isList = true) :
    (Moment.mk context root pass).run = (context.texts root.children >>= fun said =>
      pure (Text.joinWith ['\n'] said)) pass := by
  have other : root.kind ≠ .inclusion := by
    intro same
    rw [same] at listed
    cases listed
  rw [run_eq_finish other]
  unfold Node.rendered Node.finish
  cases kind : root.kind <;> simp [kind, Kind.isList] at listed <;> rfl

/-- The texts of nodes, and of others behind them, whichever pass the records stem from. -/
theorem texts_unread {first second : Pass} (calm : first.Calm second) (nodes : List Node) :
    (∃ fault last other, context.texts nodes first = .error fault last ∧
      context.texts nodes second = .error fault other) ∨
    ∃ said last other raised, context.texts nodes first = .ok said last ∧
      context.texts nodes second = .ok said other ∧ last.Calm other ∧
      last.warnings = first.warnings ++ raised ∧ other.warnings = second.warnings ++ raised := by
  -- Both passes are one without records, with different records in front.
  let bare : Pass := { first with warnings := [], notes := [] }
  have one : first = bare.behind first.warnings first.notes := by simp [bare, Pass.behind]
  have two : second = bare.behind second.warnings second.notes := by
    simp [bare, Pass.behind, ← calm.environment, ← calm.searchDirs, ← calm.usesBuilder]
  have ran (warnings : List Warning) (notes : List Note) :=
    context.unread_texts nodes warnings notes bare
  rw [one, two, ran, ran]
  cases context.texts nodes bare with
  | error fault last => exact .inl ⟨fault, _, _, rfl, rfl⟩
  | ok said last => exact .inr ⟨said, _, _, last.warnings, rfl, rfl, ⟨rfl, rfl, rfl⟩, by
      simp [bare, Pass.behind]⟩

/-- A list of statements, from some of its statements on. -/
theorem run_behind (list : root.kind.isList = true)
    (front : context.texts before pass = .ok said middle) (nodes : List Node) :
    (Moment.mk context { root with children := before ++ nodes ++ later } pass).run =
      (context.texts nodes >>= fun inner => context.texts later >>= fun more =>
        pure (Text.joinWith ['\n'] (said ++ inner ++ more))) middle := by
  have same : ({ root with children := before ++ nodes ++ later } : Node).kind = root.kind := rfl
  rw [run_of_list (same ▸ list)]
  simp only [Context.texts_append_eq, bind_assoc, pure_bind]
  exact Render.bind_ok front

theorem texts_of_inclusion {place : Path} {source : Text} {found : Pass}
    (includes : node.kind = .inclusion)
    (located : Render.located context node middle = .ok (place, source) found)
    (closed : ¬context.Open place)
    (room : context.stack.length < context.settings.maxIncludeDepth)
    (unit : (context.parse source).kind.isList = true) (plain : (context.parse source).IsPlain) :
    context.texts [node] middle =
      match context.texts (context.parse source).children
        (Render.entered context node place found) with
      | .ok inner last => .ok [Render.included place (Text.joinWith ['\n'] inner)] last
      | .error fault last => .error fault last := by
  have body := @run_of_list (context.enter place) _ (Render.entered context node place found) unit
  rw [Context.texts_enter fun child member => plain.child member] at body
  have own := @run_of_room ⟨context, node, middle⟩ place source found includes located closed room
  rw [inside, body] at own
  cases ran : context.texts (context.parse source).children
    (Render.entered context node place found) with
  | ok inner last =>
    rw [Render.bind_ok ran] at own
    exact texts_single own
  | error fault last =>
    rw [Render.bind_error ran, run, Node.render_room] at own
    exact Render.bind_error own

/-- Including a unit is splicing it: a unit that includes nothing is rendered as its statements would
be in the place of the node. The texts differ by the line that names the unit, and the warnings by
those over the path of the node, of which a unit that was read from a source has none. -/
theorem inclusion_splices {place : Path} {source : Text} {found : Pass}
    (list : root.kind.isList = true)
    (front : context.texts before pass = .ok said middle)
    (includes : node.kind = .inclusion)
    (located : Render.located context node middle = .ok (place, source) found)
    (closed : ¬context.Open place)
    (room : context.stack.length < context.settings.maxIncludeDepth)
    (unit : (context.parse source).kind.isList = true)
    (plain : ∀ inner ∈ (context.parse source).all, inner.kind ≠ .inclusion) :
    (∃ fault last other,
      (Moment.mk context { root with children := before ++ node :: later } pass).run =
        .error fault last ∧
      (Moment.mk context { root with
        children := before ++ (context.parse source).children ++ later } pass).run =
        .error fault other) ∨
    ∃ inner more next last other raised,
      context.texts (context.parse source).children middle = .ok inner next ∧
      context.texts later next = .ok more other ∧
      (Moment.mk context { root with children := before ++ node :: later } pass).run =
        .ok (Text.joinWith ['\n']
          (said ++ [Render.included place (Text.joinWith ['\n'] inner)] ++ more)) last ∧
      (Moment.mk context { root with
        children := before ++ (context.parse source).children ++ later } pass).run =
        .ok (Text.joinWith ['\n'] (said ++ inner ++ more)) other ∧
      last.environment = other.environment ∧ last.searchDirs = other.searchDirs ∧
      last.usesBuilder = other.usesBuilder ∧
      other.warnings = middle.warnings ++ raised ∧
      last.warnings = middle.warnings ++ node.pathStrays ++ raised ∧
      ((∃ text, node ∈ (Source.parse text).all) → last.warnings = other.warnings) := by
  have single : before ++ node :: later = before ++ [node] ++ later := by simp
  have entered : (Render.entered context node place found).warnings =
      middle.warnings ++ node.pathStrays :=
    Render.warns_located context node middle (place, source) found located
  simp only [single, run_behind list front]
  rcases texts_unread (Render.calm_entered located) (context.parse source).children with
    ⟨fault, other, last, spliced, inside⟩ |
    ⟨inner, next, beyond, own, spliced, inside, calm, warned, alike⟩
  · refine .inl ⟨fault, last, other, Render.bind_error ?_, Render.bind_error spliced⟩
    rw [texts_of_inclusion includes located closed room unit plain, inside]
  have started : context.texts [node] middle =
      .ok [Render.included place (Text.joinWith ['\n'] inner)] beyond := by
    rw [texts_of_inclusion includes located closed room unit plain, inside]
  simp only [Render.bind_ok started, Render.bind_ok spliced]
  -- Behind the unit the passes differ in their records only, and so do those at the end.
  rcases texts_unread calm later with ⟨fault, other, last, outside, behind⟩ |
    ⟨more, other, last, others, outside, behind, calm, louder, similar⟩
  · exact .inl ⟨fault, last, other, Render.bind_error behind, Render.bind_error outside⟩
  have full : last.warnings = middle.warnings ++ node.pathStrays ++ (own ++ others) := by
    rw [similar, alike, entered, List.append_assoc _ own]
  have spare : other.warnings = middle.warnings ++ (own ++ others) := by
    rw [louder, warned, List.append_assoc]
  refine .inr ⟨inner, more, next, last, other, own ++ others, spliced, outside,
    Render.bind_ok behind, Render.bind_ok outside, calm.environment, calm.searchDirs,
    calm.usesBuilder, spare, full, ?_⟩
  rintro ⟨text, member⟩
  rw [full, spare, Source.pathStrays_parse member includes, List.append_nil]

/-- The text and the warnings of a run that succeeds. -/
def outcome? (moment : Moment) : Option (Text × List Warning) :=
  match moment.run with
  | .ok text after => some (text, after.warnings)
  | .error _ _ => none

theorem run_of_outcome {moment : Moment} {text : Text} {warnings : List Warning}
    (outcome : moment.outcome? = some (text, warnings)) :
    ∃ after, moment.run = .ok text after ∧ after.warnings = warnings := by
  unfold outcome? at outcome
  split at outcome
  · next said after ran =>
    cases outcome
    exact ⟨after, ran, rfl⟩
  · cases outcome

/-- The surroundings of a unit next to which another one binds a variable. -/
def besideBinding : Context :=
  Compile.standard (Library.ofFiles [("u".toList, "X = 1".toList)]).load {} []

def bindingPlace : Path :=
  ⟨false, [.name "u".toList]⟩

/-- A node that includes that unit, with a path in parts. -/
def bindingIncluded (parts : List Node) : Node :=
  .branch .inclusion 2 "%include u".toList [.branch .path 2 "u".toList parts]

def remarkInFront : Node :=
  .leaf .comment 1 "# one".toList

def readsBinding : Node :=
  .branch (.assignment false false) 3 "Y = $[X]".toList
    [.leaf .identifier 3 "Y".toList, .token 3 "=".toList, .leaf .value 3 "$[X]".toList]

/-- The statements of that unit. -/
def bindingStatements : List Node :=
  (besideBinding.parse "X = 1".toList).children

/-- The start of a pass over statements in those surroundings. -/
def ofStatements (statements : List Node) : Moment :=
  ⟨besideBinding, .branch .sourceFile 1 [] statements, {}⟩

theorem bindingUnit_spliced :
    besideBinding.texts [remarkInFront] {} = .ok ["// one".toList] {} ∧
    Render.located besideBinding (bindingIncluded []) {} = .ok (bindingPlace, "X = 1".toList) {} ∧
    ∃ text last other,
      (ofStatements ([remarkInFront] ++ bindingIncluded [] :: [readsBinding])).run = .ok text last ∧
      (ofStatements ([remarkInFront] ++ bindingStatements ++ [readsBinding])).run =
        .ok "// one\nvars.X = \"1\";\nvars.Y = \"1\";".toList other ∧
      last.environment = other.environment ∧ last.warnings = other.warnings := by
  have front : besideBinding.texts [remarkInFront] {} = .ok ["// one".toList] {} := rfl
  have located : Render.located besideBinding (bindingIncluded []) {} =
      .ok (bindingPlace, "X = 1".toList) {} := by with_unfolding_all rfl
  have plain : ∀ inner ∈ (besideBinding.parse "X = 1".toList).all, inner.kind ≠ .inclusion := by
    decide +kernel
  have outcome : (ofStatements ([remarkInFront] ++ bindingStatements ++ [readsBinding])).outcome? =
      some ("// one\nvars.X = \"1\";\nvars.Y = \"1\";".toList, []) := by decide +kernel
  obtain ⟨final, ran, _⟩ := run_of_outcome outcome
  have spliced := @inclusion_splices besideBinding (.branch .sourceFile 1 [] []) (bindingIncluded [])
    [remarkInFront] [readsBinding] {} {} ["// one".toList] bindingPlace "X = 1".toList {}
    rfl front rfl located (by decide) (by decide) rfl plain
  refine ⟨front, located, ?_⟩
  rcases spliced with ⟨fault, last, other, _, failed⟩ |
    ⟨inner, more, next, last, other, raised, _, _, first, second, environment, _, _, spare, full, _⟩
  · cases ran.symm.trans failed
  · have same := ran.symm.trans second
    injection same with text pass
    refine ⟨_, last, other, first, text ▸ second, environment, ?_⟩
    rw [spare, full]
    rfl

def strayToken : Node :=
  .token 2 "u".toList

/-- A token in the path of the node raises a warning that the statements of the unit do not. -/
theorem strayPath_warned :
    Render.located besideBinding (bindingIncluded [strayToken]) {} =
      .ok (bindingPlace, "X = 1".toList)
        { warnings := [strayToken.unruled], notes := [.warned strayToken.unruled] } ∧
    ¬besideBinding.Open bindingPlace ∧
    besideBinding.stack.length < besideBinding.settings.maxIncludeDepth ∧
    (∀ inner ∈ (besideBinding.parse "X = 1".toList).all, inner.kind ≠ .inclusion) ∧
    (ofStatements [bindingIncluded [strayToken]]).outcome? =
      some ("// included from u\nvars.X = \"1\";".toList, [strayToken.unruled]) ∧
    (ofStatements bindingStatements).outcome? = some ("vars.X = \"1\";".toList, []) :=
  ⟨rfl, by decide +kernel⟩

end Moment

end BmakeZig
