import BmakeZig.Compile
import BmakeZig.Proofs.Render.Plan
import BmakeZig.Proofs.Source.Shape

/-! What a pass over a unit can come to. The units read here only hold nodes that have a rule, so
the pass fails for a modifier or for an included unit and for nothing else, and it warns about
built-in commands it does not know and about nothing else. -/
namespace BmakeZig

/-- The faults that a unit may bring about: a modifier, which has no rule, and the three that an
inclusion may end in. -/
def Fault.Foreseen : Fault → Prop
  | .unknownKind kind _ => kind = "expansion_mod".toList
  | .unitNotFound .. | .inclusionCycle _ | .depthExceeded .. => True
  | .unknownMarker .. | .malformed .. | .unreadable .. => False

/-- A warning about a built-in command that there is none of. -/
def Warning.Foreseen (warning : Warning) : Prop :=
  ∃ word, Text.isName word = true ∧
    warning.message = "unsupported builtin command '".toList ++ '~' :: word ++ "'".toList

namespace Render

variable {α β : Type}

/-- The action fails with foreseen faults only, and adds foreseen warnings only. -/
def Safe (action : Render α) : Prop :=
  ∀ pass : Pass, (∀ warning ∈ pass.warnings, warning.Foreseen) →
    match action pass with
    | .ok _ after => ∀ warning ∈ after.warnings, warning.Foreseen
    | .error fault _ => fault.Foreseen

theorem safe_pure (value : α) : Safe (pure value) :=
  fun _ before => before

theorem Safe.bind {action : Render α} {next : α → Render β} (first : Safe action)
    (second : ∀ value, Safe (next value)) : Safe (action >>= next) := by
  intro pass before
  have middle := first pass before
  change match EStateM.bind action next pass with
    | .ok _ after => ∀ warning ∈ after.warnings, warning.Foreseen
    | .error fault _ => fault.Foreseen
  unfold EStateM.bind
  cases run : action pass with
  | ok value after =>
    rw [run] at middle
    exact second value after middle
  | error fault after =>
    rw [run] at middle
    exact middle

theorem safe_throw {fault : Fault} (foreseen : fault.Foreseen) :
    Safe (throw fault : Render α) :=
  fun _ _ => foreseen

/-- An action that always succeeds and leaves the warnings alone. -/
theorem safe_of_quiet {action : Render α}
    (quiet : ∀ pass, ∃ value after, action pass = .ok value after ∧ after.warnings = pass.warnings) :
    Safe action := by
  intro pass before
  obtain ⟨value, after, run, same⟩ := quiet pass
  rw [run]
  simpa only [same] using before

theorem safe_note (note : Note) : Safe (Render.note note) :=
  safe_of_quiet fun _ => ⟨_, _, rfl, rfl⟩

theorem safe_noted (noted : Noted α) : Safe (Render.noted noted) :=
  safe_of_quiet fun _ => ⟨_, _, rfl, rfl⟩

theorem safe_environment : Safe environment :=
  safe_of_quiet fun _ => ⟨_, _, rfl, rfl⟩

theorem safe_assign (name value : Text) : Safe (assign name value) :=
  safe_of_quiet fun _ => ⟨_, _, rfl, rfl⟩

theorem safe_append (name value separator : Text) : Safe (append name value separator) :=
  safe_of_quiet fun _ => ⟨_, _, rfl, rfl⟩

theorem safe_undefine (name : Text) : Safe (undefine name) :=
  safe_of_quiet fun _ => ⟨_, _, rfl, rfl⟩

theorem safe_warn {line : Nat} {message : Text} (foreseen : Warning.Foreseen ⟨line, message⟩) :
    Safe (warn line message) := by
  intro pass before warning member
  rcases List.mem_append.1 member with old | new
  · exact before warning old
  · rw [List.mem_singleton.1 new]
    exact foreseen

/-- An action that leaves the warnings alone whatever it is. -/
theorem safe_modify {change : Pass → Pass} (quiet : ∀ pass, (change pass).warnings = pass.warnings) :
    Safe (modify change : Render Unit) :=
  safe_of_quiet fun pass => ⟨_, _, rfl, quiet pass⟩

/-! Values. -/

variable {context : Context} {follow : Node → Render Text} {role : Role} {node : Node}

theorem safe_reference (mode : Mode) (shape : Shape .expansion node) :
    Safe (reference node mode) := by
  cases shape with
  | plain named =>
    cases named
    exact safe_pure _
  | modified =>
    apply safe_throw
    rfl

theorem safe_childFragments (shape : Shape .piece node) : Safe (childFragments node) := by
  cases shape with
  | literal => exact safe_pure _
  | expanded inner =>
    have referring := fun mode => safe_reference mode inner
    cases inner with
    | plain => exact (referring _).bind fun _ => safe_pure _
    | modified => exact (referring _).bind fun _ => safe_pure _

theorem safe_collect {nodes : List Node} (pieces : ∀ child ∈ nodes, Shape .piece child) :
    Safe (collect nodes) := by
  induction nodes with
  | nil => exact safe_pure _
  | cons child rest ih =>
    have later := ih fun other member => pieces other (List.mem_cons_of_mem _ member)
    exact (safe_childFragments (pieces child (by simp))).bind fun _ => later.bind fun _ => safe_pure _

/-- A node without a reference of its own, whose children are the pieces of its text. -/
theorem safe_writtenFragments {kind : Kind} {line : Nat} {text : Text} {children : List Node}
    (plain : ∀ mode, kind ≠ .expansion mode) (pieces : ∀ child ∈ children, Shape .piece child) :
    Safe (writtenFragments (.branch kind line text children)) := by
  unfold writtenFragments
  split
  · next mode same => exact absurd same (plain mode)
  · split
    · exact safe_pure _
    · exact safe_collect pieces

theorem safe_fragments (written : Safe (writtenFragments node)) : Safe (fragments node) :=
  written.bind fun _ => safe_environment.bind fun _ => safe_noted _

theorem safe_value (written : Safe (writtenFragments node)) : Safe (value node) :=
  (safe_fragments written).bind fun _ => safe_environment.bind fun _ => safe_pure _

theorem safe_phraseFragments {kind : Kind} (plain : ∀ mode, kind ≠ .expansion mode)
    (shape : Shape (.phrase kind) node) : Safe (fragments node) := by
  cases shape with
  | phrase _ pieces => exact safe_fragments (safe_writtenFragments plain pieces)

theorem safe_expansionValue (shape : Shape .expansion node) : Safe (value node) := by
  apply safe_value
  have referring := fun mode => safe_reference mode shape
  cases shape with
  | plain => exact (referring _).bind fun _ => safe_pure _
  | modified => exact (referring _).bind fun _ => safe_pure _

theorem safe_staticPath (shape : Shape (.phrase .path) node) : Safe (staticPath context node) :=
  (safe_phraseFragments (by simp) shape).bind fun _ => safe_environment.bind fun _ => safe_noted _

/-! Statements. -/

theorem safe_assignment {settings : Settings} {appends expands : Bool} {line : Nat}
    {text operator : Text} {target argument : Node} (assigned : Shape .name target)
    (valued : Shape (.phrase .value) argument) :
    Safe (assignment settings (.branch (.assignment appends expands) line text
      [target, .token line operator, argument]) appends expands) := by
  have second : Node.namedChild? (.branch (.assignment appends expands) line text
      [target, .token line operator, argument]) 1 = some argument := assignment_value assigned valued
  cases assigned
  unfold assignment
  rw [second]
  refine (safe_pure _).bind fun name => ?_
  refine (safe_phraseFragments (by simp) valued).bind fun written => ?_
  cases appends <;> cases expands
  · exact (safe_pure _).bind fun kept => safe_environment.bind fun _ =>
      (safe_assign _ _).bind fun _ => safe_pure _
  · exact safe_environment.bind fun _ => (safe_noted _).bind fun kept =>
      safe_environment.bind fun _ => (safe_assign _ _).bind fun _ => safe_pure _
  · refine (safe_pure _).bind fun kept => safe_environment.bind fun _ =>
      safe_environment.bind fun before => (safe_append _ _ _).bind fun _ => ?_
    split <;> exact safe_pure _
  · refine safe_environment.bind fun _ => (safe_noted _).bind fun kept =>
      safe_environment.bind fun _ => safe_environment.bind fun before =>
        (safe_append _ _ _).bind fun _ => ?_
    split <;> exact safe_pure _

theorem safe_undef {line : Nat} {text word : Text} {target : Node} (dropped : Shape .name target) :
    Safe (undef (.branch .undef line text [.token line word, target])) := by
  cases dropped
  exact (safe_pure _).bind fun _ => (safe_undefine _).bind fun _ => safe_pure _

theorem find_path {kind : Kind} {line : Nat} {text word : Text} {path : Node}
    (place : Shape (.phrase .path) path) :
    Node.find? (.branch kind line text [.token line word, path]) .path = some path := by
  cases place
  rfl

theorem safe_search {line : Nat} {text word : Text} {path : Node}
    (place : Shape (.phrase .path) path) :
    Safe (search context (.branch .search line text [.token line word, path])) := by
  simp only [search, find_path place, require_some, pure_bind]
  refine (safe_staticPath place).bind fun directory => (safe_note _).bind fun _ => ?_
  exact Safe.bind (safe_modify (by intro _; rfl)) fun _ => safe_pure _

/-! Nodes with parts. -/

theorem safe_texts {parts : List Part} (each : ∀ part ∈ parts, Safe part.text) :
    Safe (texts parts) := by
  induction parts with
  | nil => exact safe_pure _
  | cons part rest ih =>
    have later := ih fun other member => each other (List.mem_cons_of_mem _ member)
    exact (each part (by simp)).bind fun _ => later.bind fun _ => safe_pure _

theorem safe_lines {parts : List Part} (each : ∀ part ∈ parts, Safe part.text) :
    Safe (lines parts) :=
  (safe_texts each).bind fun _ => safe_pure _

theorem safe_clauses {parts : List Part} (each : ∀ part ∈ parts, Safe (part.clause node)) :
    Safe (clauses node parts) := by
  induction parts with
  | nil => exact safe_pure _
  | cons part rest ih =>
    have later := ih fun other member => each other (List.mem_cons_of_mem _ member)
    exact (each part (by simp)).bind fun _ => later.bind fun _ => safe_pure _

/-- A phrase that is rendered by itself, as the expression of its value. -/
theorem safe_phraseText {kind : Kind} (kinds : kind = .message ∨ kind = .command ∨ kind = .path)
    (shape : Shape (.phrase kind) node) : Safe (node.plan context follow).text := by
  rw [Node.plan_text]
  cases shape with
  | phrase oneLine pieces =>
    rcases kinds with rfl | rfl | rfl <;>
      exact safe_value (safe_writtenFragments (by simp) pieces)

theorem safe_negation {line : Nat} {text operator : Text} {operand : Node}
    (named : operand.named = true) (inner : Safe (operand.plan context follow).text) :
    Safe ((Node.branch .not line text [.token line operator, operand]).plan context follow).text := by
  rw [negation_plan named]
  exact inner.bind fun _ => safe_pure _

theorem safe_bothOperands {kind : Kind} {line : Nat} {text operator : Text} {left right : Node}
    (named : left.named = true ∧ right.named = true) (first : Safe (left.plan context follow).text)
    (second : Safe (right.plan context follow).text) :
    Safe (bothOperands (.branch kind line text [left, .token line operator, right])
      ([left, .token line operator, right].map (Node.plan context follow))) := by
  rw [bothOperands_plan named]
  exact first.bind fun _ => second.bind fun _ => safe_pure _

theorem safe_joined {kind : Kind} {line : Nat} {text operator : Text} {left right : Node}
    (kinds : kind = .or ∨ kind = .and ∨ kind = .eq) (named : left.named = true ∧ right.named = true)
    (first : Safe (left.plan context follow).text) (second : Safe (right.plan context follow).text) :
    Safe ((Node.branch kind line text [left, .token line operator, right]).plan
      context follow).text := by
  rw [Node.plan_text]
  rcases kinds with rfl | rfl | rfl <;>
    exact (safe_bothOperands named first second).bind fun _ => safe_pure _

theorem safe_diagnostic {directive : Source.Directive} {line : Nat} {text : Text} {message : Node}
    (reports : directive.reports = true) (said : Shape (.phrase .message) message) :
    Safe ((Node.branch .diagnostic line text [.token line directive.spelling, message]).plan
      context follow).text := by
  obtain ⟨marker, planned⟩ := diagnostic_plan reports
  rw [planned]
  exact (safe_phraseText (Or.inl rfl) said).bind fun _ => safe_pure _

theorem safe_command {line : Nat} {text : Text} {modifiers builtin : List Node} {argument : Node}
    (modifying : ∀ modifier ∈ modifiers, ∃ mark, modifier = .leaf .commandMod line mark)
    (building : builtin = [] ∨ ∃ word, Text.isName word = true ∧
      builtin = [.leaf .builtinCommand line ('~' :: word)])
    (inner : Shape (.phrase .command) argument) :
    Safe ((Node.branch .buildCommand line text (modifiers ++ builtin ++ [argument])).plan
      context follow).text := by
  have kind : argument.kind = .command := by
    cases inner
    rfl
  rw [Node.plan_text]
  change Safe (buildCommand _ ((modifiers ++ builtin ++ [argument]).map (Node.plan context follow)))
  simp only [buildCommand, command_argument modifying building inner]
  refine (safe_phraseText (Or.inr (Or.inl rfl)) inner).bind fun said => ?_
  split
  · exact safe_pure _
  · next name found =>
    have same := List.find?_some found
    have member := (List.mem_filter.1 (List.mem_of_find?_eq_some found)).1
    simp only [decide_eq_true_eq] at same
    split
    · exact safe_pure _
    · rcases List.mem_append.1 member with before | last
      · rcases command_front modifying building before with other | ⟨_, word, named, spelled⟩
        · simp [other] at same
        · exact (safe_warn ⟨word, named, by rw [spelled]⟩).bind fun _ => safe_pure _
      · rw [List.mem_singleton.1 last, kind] at same
        simp at same

theorem safe_rule {line bodyLine : Nat} {text colon bodyText : Text} {target : Node}
    {entries : List Node} (aimed : Shape .target target)
    (each : ∀ entry ∈ entries, Safe (entry.plan context follow).text) :
    Safe ((Node.branch .rule line text
      [target, .token line colon, .branch .ruleBody bodyLine bodyText entries]).plan
        context follow).text := by
  have body : Safe (lines (entries.map (Node.plan context follow))) := by
    refine safe_lines fun part member => ?_
    obtain ⟨entry, inside, rfl⟩ := List.mem_map.1 member
    exact each entry inside
  rw [rule_plan aimed]
  refine body.bind fun said => ?_
  cases aimed with
  | always => exact safe_pure _
  | declared => exact Safe.bind (safe_modify (by intro _; rfl)) fun _ => safe_pure _

/-- The test of a block renders by its own rule, or not at all when it is a bare name. -/
theorem safe_test {directive : Source.Directive} {test : Node} (opens : directive.opensBlock = true)
    (shape : Shape directive.testRole test)
    (condition : directive = .ifHolds → Safe (test.plan context follow).text) :
    Safe (Render.test directive.spelling (test.plan context follow)) := by
  cases directive <;> simp only [Source.Directive.opensBlock, Bool.false_eq_true] at opens
  case ifHolds => exact condition rfl
  case ifDefined | ifUndefined => exact safe_pure _
  case ifFile | ifNoFile =>
    exact (safe_phraseText (Or.inr (Or.inr rfl)) shape).bind fun _ => safe_pure _

theorem safe_conditional {directive : Source.Directive} {line last : Nat} {text ending : Text}
    {test inner : Node} {branches : List Node}
    (named : test.named = true ∧ inner.named = true ∧ ∀ branch ∈ branches, branch.named = true)
    (tested : Safe (Render.test directive.spelling (test.plan context follow)))
    (held : Safe (inner.plan context follow).text)
    (each : ∀ branch ∈ branches, ∀ parent, Safe ((branch.plan context follow).clause parent)) :
    Safe ((Node.branch .conditional line text
      (.token line directive.spelling :: test :: inner :: branches ++ [.token last ending])).plan
        context follow).text := by
  rw [conditional_plan named]
  refine tested.bind fun _ => held.bind fun _ => Safe.bind (safe_clauses ?_) fun _ => safe_pure _
  intro part member
  obtain ⟨branch, inside, rfl⟩ := List.mem_map.1 member
  exact each branch inside _

/-- What rendering a node in a role comes to. Roles that have no rule of their own are left to the
node they belong to. -/
def Renders (context : Context) (follow : Node → Render Text) : Role → Node → Prop
  | .condition, node | .entry, node | .body, node | .statement, node =>
    Safe (node.plan context follow).text
  | .clause, node => ∀ parent, Safe ((node.plan context follow).clause parent)
  | _, _ => True

/-- Induction on the shape. Only an included unit leads out of the tree, so what becomes of one is
taken as given. -/
theorem renders_of_shape
    (follows : ∀ node path, Node.find? node .path = some path → Shape (.phrase .path) path →
      Safe (follow node))
    (shape : Shape role node) : Renders context follow role node := by
  induction shape with
  | name | plain | modified | literal | expanded | phrase | always | declared => trivial
  | named inner =>
    cases inner with
    | name => exact fun _ before => before
  | string => exact fun _ before => before
  | expansion inner =>
    have valued := safe_expansionValue inner
    cases inner <;> exact valued
  | defined inner =>
    cases inner with
    | name => exact fun _ before => before
  | negated inner ih => exact safe_negation inner.isNamed ih
  | joined kinds first second ihLeft ihRight =>
    exact safe_joined kinds ⟨first.isNamed, second.isNamed⟩ ihLeft ihRight
  | remark | comment | error => exact fun _ before => before
  | command _ modifying building inner => exact safe_command modifying building inner
  | elseIf tested held ihTest ihBody =>
    intro parent
    rw [elseIf_plan ⟨tested.isNamed, held.isNamed⟩]
    exact Safe.bind ihTest fun _ => Safe.bind ihBody fun _ => safe_pure _
  | otherwise held ihBody =>
    intro parent
    rw [otherwise_plan held.isNamed]
    exact Safe.bind ihBody fun _ => safe_pure _
  | body statements ih =>
    change Safe _
    rw [Node.plan_text]
    refine safe_lines fun part member => ?_
    obtain ⟨child, inside, rfl⟩ := List.mem_map.1 member
    exact ih child inside
  | assignment assigned valued => exact safe_assignment assigned valued
  | undef dropped => exact safe_undef dropped
  | diagnostic reports said => exact safe_diagnostic reports said
  | located kinds place =>
    change Safe _
    rw [Node.plan_text]
    rcases kinds with rfl | rfl
    · exact follows _ _ (find_path place) place
    · exact safe_search place
  | rule aimed each _ ih => exact safe_rule aimed ih
  | conditional opens tested held each ihTest ihBody ihClauses =>
    refine safe_conditional ⟨tested.isNamed, held.isNamed, fun child member => (each child member).isNamed⟩
      (safe_test opens tested ?_) ihBody ihClauses
    rintro rfl
    exact ihTest

/-! Whole units, with what they include. -/

theorem safe_findUnit (context : Context) (requested : Text) : Safe (findUnit context requested) := by
  refine Safe.bind (safe_of_quiet fun _ => ⟨_, _, rfl, rfl⟩) fun pass => ?_
  refine (safe_noted _).bind fun _ => ?_
  split
  · exact safe_pure _
  · exact safe_throw trivial

theorem safe_inclusion {inner : Option (Context → Node → Render Text)} {path : Node}
    (found : node.find? .path = some path) (place : Shape (.phrase .path) path)
    (deeper : ∀ render, inner = some render → ∀ below source,
      Safe (render { context with stack := below } (context.parse source))) :
    Safe (inclusion inner context node) := by
  simp only [inclusion, found, require_some, pure_bind]
  refine (safe_staticPath place).bind fun requested => ?_
  refine (safe_findUnit context requested).bind fun unit => ?_
  split
  · exact safe_throw trivial
  · cases inner with
    | none => exact safe_throw trivial
    | some render =>
      refine (safe_note _).bind fun _ => ?_
      exact (deeper render rfl _ unit.2).bind fun _ => safe_pure _

theorem safe_sourceFile {line : Nat} {text : Text} {children : List Node}
    (each : ∀ child ∈ children, Safe (child.plan context follow).text) :
    Safe ((Node.branch .sourceFile line text children).plan context follow).text := by
  rw [Node.plan_text]
  refine safe_lines fun part member => ?_
  obtain ⟨child, inside, rfl⟩ := List.mem_map.1 member
  exact each child inside

/-- Induction on how deep units may still be included. -/
theorem safe_render (depth : Nat) (context : Context) (reads : context.parse = Source.parse)
    (source : Text) :
    Safe ((Source.parse source).render depth context) := by
  induction depth generalizing context source with
  | zero =>
    refine safe_sourceFile fun child member => ?_
    refine renders_of_shape (fun node path found place => ?_) (Source.shape_of_parse source child member)
    -- With no depth left, nothing renders an included unit.
    exact safe_inclusion found place (by simp)
  | succ depth ih =>
    refine safe_sourceFile fun child member => ?_
    refine renders_of_shape (fun node path found place => ?_) (Source.shape_of_parse source child member)
    refine safe_inclusion found place fun render same below text => ?_
    obtain rfl := Option.some.inj same
    have again : context.parse text = Source.parse text := by rw [reads]
    rw [again]
    exact ih { context with stack := below } reads text

end Render

/-- Compiling a unit ends in one of the foreseen faults or in a program with foreseen warnings: no
node is malformed, no diagnostic is unknown, nothing is unreadable, and no text is taken over for
want of a rule. -/
theorem Compile.source_result_foreseen (load : Loader) (settings : Settings)
    (process : ProcessEnvironment) (source : Text) (environment : Environment) :
    match (Compile.source (Compile.standard load settings process) source environment).result with
    | .error fault => fault.Foreseen
    | .ok compiled => ∀ warning ∈ compiled.warnings, warning.Foreseen := by
  have safe := Render.safe_render settings.maxIncludeDepth
    (Compile.standard load settings process) rfl source
    { environment, notes := (Compile.seeds environment).notes } (by simp)
  simp only [Compile.source, Compile.tree, Compile.standard] at safe ⊢
  split at safe
  · next body pass run => simpa only [run] using safe
  · next fault pass run => simpa only [run] using safe

end BmakeZig
