import BmakeZig.Compile
import BmakeZig.Proofs.Render.OneLine
import BmakeZig.Proofs.Source.Shape
import BmakeZig.Proofs.Zig.Closed

/-! Every node of a unit renders into lexically closed text: conditions and the clauses of a
conditional into text that stays in code, statements into text that may end in a comment. Text of the
unit reaches the program in literals, in names and in comments only, and a comment is of one line, so
the texts that the pass remembers have to be of one line as well. -/
namespace BmakeZig

theorem Fragment.inline_term (environment : Environment) (fragment : Fragment) :
    Zig.Inline (fragment.term environment) := by
  cases fragment with
  | literal text => exact Zig.inline_literal text
  | reference name mode =>
    have value : Zig.Inline (if environment.contains name then Zig.variableNamed name
        else Zig.processVariableOrEmpty name) := by
      split
      · exact Zig.inline_variableNamed name
      · exact Zig.inline_processVariableOrEmpty name
    cases mode with
    | recursive | immediate => exact value
    | stripping => exact value.withoutEndSlashes

theorem Fragment.inline_expression (environment : Environment) (fragments : List Fragment) :
    Zig.Inline (expression environment fragments) := by
  refine Zig.inline_sequence fun text member => ?_
  obtain ⟨fragment, _, rfl⟩ := List.mem_map.1 member
  exact inline_term environment fragment

namespace Render

variable {context : Context} {follow : Node → Render Text} {role : Role} {node : Node}

/-! Values. -/

theorem gives_value {property : List Fragment → Prop} (collected : Gives (fragments node) property) :
    Gives (value node) Zig.Inline :=
  collected.bind fun _ _ => gives_environment.bind fun _ _ =>
    gives_pure (Fragment.inline_expression _ _)

/-- A phrase that is rendered by itself, as the expression of its value. -/
theorem gives_phraseText {kind : Kind} (kinds : kind = .message ∨ kind = .command ∨ kind = .path)
    (shape : Shape (.phrase kind) node) : Gives (node.plan context follow).text Zig.Inline := by
  have other : ∀ mode, kind ≠ .expansion mode := by rcases kinds with rfl | rfl | rfl <;> simp
  have valued := gives_value (gives_phraseFragments shape other)
  rw [Node.plan_text]
  cases shape with
  | phrase => rcases kinds with rfl | rfl | rfl <;> exact valued

theorem gives_expansionValue (shape : Shape .expansion node) : Gives (value node) Zig.Inline := by
  obtain ⟨mode, kind⟩ := shape.expansionMode
  rcases collects_reference mode shape with ⟨name, named, found⟩ | ⟨fault, failed⟩
  · have single : ∀ fragment ∈ [Fragment.reference name mode], fragment.OneLine := by
      simpa using Fragment.oneLine_reference mode named
    refine gives_value (gives_fragments single (.inl ?_))
    simp [writtenFragments, kind, found]
  · have none : ∀ fragment ∈ ([] : List Fragment), fragment.OneLine := by simp
    refine gives_value (gives_fragments none (.inr ⟨fault, ?_⟩))
    simp only [writtenFragments, kind, failed]
    rfl

/-! Statements without parts. -/

theorem whole_comment {text : Text} (oneLine : '\n' ∉ text) : Zig.Whole (comment text) := by
  unfold comment
  split
  · exact Zig.whole_comment fun member => oneLine (List.mem_cons_of_mem _ member)
  · exact Zig.whole_comment oneLine

theorem inline_appendStatement (name previous stored separator : Text) {value : Text}
    (inline : Zig.Inline value) :
    Zig.Inline (appendStatement name previous stored separator value) := by
  refine Zig.Inline.set name (Zig.inline_concat fun part member => ?_)
  rcases List.mem_append.1 member with front | last
  · rcases List.mem_cons.1 front with rfl | middle
    · exact Zig.inline_variableNamed name
    · split at middle
      · cases middle
      · rw [List.mem_singleton.1 middle]
        exact Zig.inline_literal separator
  · rw [List.mem_singleton.1 last]
    exact inline

/-- The end of an assignment, once it is settled what is kept of the value. -/
theorem gives_stored (around : context.OneLine) (appends : Bool) (name : Text) {kept : List Fragment}
    (each : ∀ fragment ∈ kept, fragment.OneLine) :
    Gives (do
      let value := Fragment.expression (← environment) kept
      if appends then
        let previous := (← environment).get? name
        append name (Fragment.toText kept) context.settings.appendSeparator
        match previous with
        | none => return Zig.set name value
        | some previous =>
          return appendStatement name previous (Fragment.toText kept)
            context.settings.appendSeparator value
      else
        assign name (Fragment.toText kept)
        return Zig.set name value) Zig.Inline := by
  have stored := Fragment.newline_not_mem_toText each
  refine gives_environment.bind fun now _ => ?_
  have value := Fragment.inline_expression now kept
  cases appends with
  | false => exact (gives_assign name stored).bind fun _ _ => gives_pure (value.set name)
  | true =>
    refine gives_environment.bind fun _ _ =>
      (gives_append name stored around.separator).bind fun _ _ => ?_
    split
    · exact gives_pure (value.set name)
    · exact gives_pure (inline_appendStatement _ _ _ _ value)

theorem gives_assignment (around : context.OneLine) {appends expands : Bool} {line : Nat}
    {text operator : Text} {target argument : Node} (assigned : Shape .name target)
    (valued : Shape (.phrase .value) argument) :
    Gives (assignment context.settings (.branch (.assignment appends expands) line text
      [target, .token line operator, argument]) appends expands) Zig.Inline := by
  unfold assignment
  rw [assignment_value assigned valued, assignment_target assigned]
  simp only [require_some, pure_bind]
  refine (gives_phraseFragments valued (by simp)).bind fun written each => ?_
  cases expands with
  | false => exact gives_stored around appends target.text each
  | true =>
    refine gives_environment.bind fun now oneLine => ?_
    have frozen : ∀ fragment ∈ (Noted.each (Fragment.freeze now line) written).value,
        fragment.OneLine := by
      intro fragment member
      simp only [Noted.each, List.map_map, List.mem_map] at member
      obtain ⟨original, inside, rfl⟩ := member
      exact Fragment.oneLine_freeze oneLine line (each original inside)
    have keeps : Gives (noted (Noted.each (Fragment.freeze now line) written))
        fun kept => ∀ fragment ∈ kept, fragment.OneLine := gives_noted frozen
    exact keeps.bind fun kept each => gives_stored around appends target.text each

theorem gives_undef {line : Nat} {text word : Text} {target : Node} (dropped : Shape .name target) :
    Gives (undef (.branch .undef line text [.token line word, target])) Zig.Inline := by
  cases dropped
  exact (gives_undefine _).bind fun _ _ => gives_pure ((Zig.inline_literal []).set _)

theorem gives_search (around : context.OneLine) {line : Nat} {text word : Text} {path : Node}
    (place : Shape (.phrase .path) path) :
    Gives (search context (.branch .search line text [.token line word, path])) Zig.Whole := by
  simp only [search, find_path place, require_some, pure_bind]
  refine (gives_staticPath around place).bind fun directory single => (gives_note _).bind fun _ _ => ?_
  have added : Gives (modify fun pass => { pass with
      searchDirs := pass.searchDirs ++ [Path.ofText directory] }) fun _ => True := by
    intro pass value after before run
    cases run
    refine ⟨trivial, before.environment, fun path member => ?_⟩
    rcases List.mem_append.1 member with old | new
    · exact before.searched path old
    · rw [List.mem_singleton.1 new]
      exact Path.oneLine_ofText single
  have oneLine : '\n' ∉ " search path: ".toList ++ directory := by simpa using single
  exact added.bind fun _ _ => gives_pure (Zig.whole_comment oneLine)

/-! Nodes with parts. -/

theorem gives_texts {property : Text → Prop} {parts : List Part}
    (each : ∀ part ∈ parts, Gives part.text property) :
    Gives (texts parts) fun found => ∀ text ∈ found, property text := by
  induction parts with
  | nil => exact gives_pure (by simp)
  | cons part rest ih =>
    have later := ih fun other member => each other (List.mem_cons_of_mem _ member)
    refine (each part List.mem_cons_self).bind fun first holds => ?_
    refine later.bind fun others all => gives_pure ?_
    exact List.forall_mem_cons.2 ⟨holds, all⟩

theorem gives_lines {nodes : List Node}
    (each : ∀ node ∈ nodes, Gives (node.plan context follow).text Zig.Whole) :
    Gives (lines (nodes.map (Node.plan context follow))) Zig.Whole := by
  refine Gives.bind (gives_texts fun part member => ?_) fun found all =>
    gives_pure (Zig.Whole.joinWith all)
  obtain ⟨node, inside, rfl⟩ := List.mem_map.1 member
  exact each node inside

theorem gives_clauses {parts : List Part} (each : ∀ part ∈ parts, Gives (part.clause node) Zig.Inline) :
    Gives (clauses node parts) Zig.Inline := by
  induction parts with
  | nil => exact gives_pure Zig.inline_nil
  | cons part rest ih =>
    have later := ih fun other member => each other (List.mem_cons_of_mem _ member)
    refine (each part List.mem_cons_self).bind fun first inline => ?_
    exact later.bind fun others rest => gives_pure (inline.append rest)

theorem inline_guarded {test body : Text} (tested : Zig.Inline test) (held : Zig.Whole body) :
    Zig.Inline (guarded test body) :=
  (tested.within ['('] rfl rfl).append held.block

theorem inline_bracketed {text : Text} (inline : Zig.Inline text) : Zig.Inline (bracketed text) := by
  have within : Zig.Inline (['('] ++ text ++ [')']) := inline.within ['('] rfl rfl
  exact within

theorem inline_negated {text : Text} (inline : Zig.Inline text) : Zig.Inline ('!' :: text) := by
  have mark : Zig.Inline ['!'] := fun _ => rfl
  exact mark.append inline

theorem inline_conjunct {operand : Kind × Text} (inline : Zig.Inline operand.2) :
    Zig.Inline (conjunct operand) := by
  unfold conjunct
  split
  · exact inline_bracketed inline
  · exact inline

theorem inline_negand {operand : Kind × Text} (inline : Zig.Inline operand.2) :
    Zig.Inline (negand operand) := by
  unfold negand
  split
  · exact inline_bracketed inline
  · exact inline_bracketed inline
  · exact inline

theorem gives_negation {line : Nat} {text operator : Text} {operand : Node}
    (named : operand.named = true) (inner : Gives (operand.plan context follow).text Zig.Inline) :
    Gives ((Node.branch .not line text [.token line operator, operand]).plan context follow).text
      Zig.Inline := by
  rw [negation_plan named]
  exact inner.bind fun _ inline => gives_pure (inline_negated (inline_negand inline))

theorem gives_joined {kind : Kind} {line : Nat} {text operator : Text} {left right : Node}
    (kinds : kind = .or ∨ kind = .and ∨ kind = .eq) (named : left.named = true ∧ right.named = true)
    (first : Gives (left.plan context follow).text Zig.Inline)
    (second : Gives (right.plan context follow).text Zig.Inline) :
    Gives ((Node.branch kind line text [left, .token line operator, right]).plan
      context follow).text Zig.Inline := by
  have operands : Gives (bothOperands (.branch kind line text [left, .token line operator, right])
      ([left, .token line operator, right].map (Node.plan context follow)))
      fun operands => Zig.Inline operands.1.2 ∧ Zig.Inline operands.2.2 := by
    rw [bothOperands_plan named]
    exact first.bind fun _ inlineLeft => second.bind fun _ inlineRight =>
      gives_pure ⟨inlineLeft, inlineRight⟩
  have or : Zig.Inline " or ".toList := fun _ => rfl
  have and : Zig.Inline " and ".toList := fun _ => rfl
  rw [Node.plan_text]
  rcases kinds with rfl | rfl | rfl
  · exact operands.bind fun _ inline => gives_pure ((inline.1.append or).append inline.2)
  · exact operands.bind fun _ inline =>
      gives_pure (((inline_conjunct inline.1).append and).append (inline_conjunct inline.2))
  · exact operands.bind fun _ inline => gives_pure (inline.1.equal inline.2)

theorem gives_diagnostic {directive : Source.Directive} {line : Nat} {text : Text} {message : Node}
    (reports : directive.reports = true) (said : Shape (.phrase .message) message) :
    Gives ((Node.branch .diagnostic line text [.token line directive.spelling, message]).plan
      context follow).text Zig.Inline := by
  obtain ⟨marker, planned⟩ := diagnostic_plan reports
  rw [planned]
  exact (gives_phraseText (Or.inl rfl) said).bind fun _ inline =>
    gives_pure (marker.inline_call inline)

theorem inline_plainCommand (modifiers : Text) {command : Text} (inline : Zig.Inline command) :
    Zig.Inline (plainCommand modifiers command) := by
  unfold plainCommand
  split
  · exact inline.print rfl
  · split
    · exact inline.print rfl
    · exact inline.run _ _

theorem inline_builtin {name command call : Text} (inline : Zig.Inline command)
    (known : builtin? name command = some call) : Zig.Inline call := by
  unfold builtin? at known
  split at known
  · cases known
    exact inline.within ['('] rfl rfl
  · split at known
    · cases known
      have arguments : Zig.Inline (" ".toList ++ command ++ ", std.time.timestamp() ".toList) :=
        inline.within [] rfl rfl
      exact arguments.print rfl
    · split at known
      · cases known
        exact inline.print rfl
      · cases known

theorem gives_command {line : Nat} {text : Text} {modifiers builtin : List Node} {argument : Node}
    (oneLine : '\n' ∉ text)
    (modifying : ∀ modifier ∈ modifiers, ∃ mark, modifier = .leaf .commandMod line mark)
    (building : builtin = [] ∨ ∃ word, Text.isName word = true ∧
      builtin = [.leaf .builtinCommand line ('~' :: word)])
    (inner : Shape (.phrase .command) argument) :
    Gives ((Node.branch .buildCommand line text (modifiers ++ builtin ++ [argument])).plan
      context follow).text Zig.Whole := by
  rw [Node.plan_text]
  change Gives (buildCommand _ ((modifiers ++ builtin ++ [argument]).map (Node.plan context follow)))
    Zig.Whole
  simp only [buildCommand, command_argument modifying building inner]
  refine (gives_phraseText (Or.inr (Or.inl rfl)) inner).bind fun said inline => ?_
  split
  · exact gives_pure (inline_plainCommand _ inline).whole
  · split
    · next known => exact gives_pure (inline_builtin inline known).whole
    · have remark : '\n' ∉ ' ' :: text := by simpa using oneLine
      exact (gives_warn _ _).bind fun _ _ => gives_pure (Zig.whole_comment remark)

theorem gives_rule {line bodyLine : Nat} {text colon bodyText : Text} {target : Node}
    {entries : List Node} (aimed : Shape .target target)
    (each : ∀ entry ∈ entries, Gives (entry.plan context follow).text Zig.Whole) :
    Gives ((Node.branch .rule line text
      [target, .token line colon, .branch .ruleBody bodyLine bodyText entries]).plan
        context follow).text Zig.Whole := by
  rw [rule_plan aimed]
  refine (gives_lines each).bind fun body whole => ?_
  cases aimed with
  | always => exact gives_pure whole
  | declared =>
    have registered : Gives (modify fun pass => { pass with usesBuilder := true }) fun _ => True :=
      gives_of_quiet trivial fun _ => ⟨_, rfl, rfl, rfl⟩
    exact registered.bind fun _ _ => gives_pure (whole.buildStep _).whole

/-- The test of a block renders by its own rule, or not at all when it is a bare name. -/
theorem gives_test {directive : Source.Directive} {test : Node} (opens : directive.opensBlock = true)
    (shape : Shape directive.testRole test)
    (condition : directive = .ifHolds → Gives (test.plan context follow).text Zig.Inline) :
    Gives (Render.test directive.spelling (test.plan context follow)) Zig.Inline := by
  cases directive <;> simp only [Source.Directive.opensBlock, Bool.false_eq_true] at opens
  case ifHolds => exact condition rfl
  case ifDefined => exact gives_pure (Zig.inline_isSet _)
  case ifUndefined => exact gives_pure (Zig.inline_isUnset _)
  case ifFile =>
    exact (gives_phraseText (Or.inr (Or.inr rfl)) shape).bind fun _ inline =>
      gives_pure inline.fileExists
  case ifNoFile =>
    exact (gives_phraseText (Or.inr (Or.inr rfl)) shape).bind fun _ inline =>
      gives_pure (inline_negated inline.fileExists)

theorem gives_conditional {directive : Source.Directive} {line last : Nat} {text ending : Text}
    {test inner : Node} {branches : List Node}
    (named : test.named = true ∧ inner.named = true ∧ ∀ branch ∈ branches, branch.named = true)
    (tested : Gives (Render.test directive.spelling (test.plan context follow)) Zig.Inline)
    (held : Gives (inner.plan context follow).text Zig.Whole)
    (each : ∀ branch ∈ branches, ∀ parent,
      Gives ((branch.plan context follow).clause parent) Zig.Inline) :
    Gives ((Node.branch .conditional line text
      (.token line directive.spelling :: test :: inner :: branches ++ [.token last ending])).plan
        context follow).text Zig.Inline := by
  rw [conditional_plan named]
  refine tested.bind fun _ inline => held.bind fun _ whole => ?_
  refine Gives.bind (gives_clauses fun part member => ?_) fun _ rest =>
    gives_pure ((inline_guarded inline whole).append rest)
  obtain ⟨branch, inside, rfl⟩ := List.mem_map.1 member
  exact each branch inside _

/-- What the text of a node in a role is like. Roles that have no rule of their own are left to the
node they belong to. -/
def Emits (context : Context) (follow : Node → Render Text) : Role → Node → Prop
  | .condition, node => Gives (node.plan context follow).text Zig.Inline
  | .entry, node | .body, node | .statement, node =>
    Gives (node.plan context follow).text Zig.Whole
  | .clause, node => ∀ parent, Gives ((node.plan context follow).clause parent) Zig.Inline
  | _, _ => True

theorem Gives.whole {action : Render Text} (gives : Gives action Zig.Inline) :
    Gives action Zig.Whole := by
  intro pass text after before run
  obtain ⟨inline, kept⟩ := gives pass text after before run
  exact ⟨inline.whole, kept⟩

/-- Induction on the shape. Only an included unit leads out of the tree, so what becomes of one is
taken as given. -/
theorem emits_of_shape (around : context.OneLine)
    (follows : ∀ node path, Node.find? node .path = some path → Shape (.phrase .path) path →
      Gives (follow node) Zig.Whole)
    (shape : Shape role node) : Emits context follow role node := by
  induction shape with
  | name | plain | modified | literal | expanded | phrase | always | declared => trivial
  | named inner =>
    cases inner with
    | name named => exact gives_pure (Zig.inline_name named)
  | string => exact gives_pure (Zig.inline_literal _)
  | expansion inner =>
    have valued := gives_expansionValue inner
    cases inner <;> exact valued
  | defined inner =>
    cases inner with
    | name => exact gives_pure (Zig.inline_isSet _)
  | negated inner ih => exact gives_negation inner.isNamed ih
  | joined kinds first second ihLeft ihRight =>
    exact gives_joined kinds ⟨first.isNamed, second.isNamed⟩ ihLeft ihRight
  | remark oneLine | comment oneLine => exact gives_pure (whole_comment oneLine)
  | error => exact gives_pure (Zig.whole_unreadSpan _ _)
  | command oneLine modifying building inner => exact gives_command oneLine modifying building inner
  | elseIf tested held ihTest ihBody =>
    intro parent
    have word : Zig.Inline " else ".toList := fun _ => rfl
    rw [elseIf_plan ⟨tested.isNamed, held.isNamed⟩]
    exact Gives.bind ihTest fun _ inline => Gives.bind ihBody fun _ whole =>
      gives_pure (word.append (inline_guarded inline whole))
  | otherwise held ihBody =>
    intro parent
    have word : Zig.Inline " else ".toList := fun _ => rfl
    rw [otherwise_plan held.isNamed]
    exact Gives.bind ihBody fun _ whole => gives_pure (word.append whole.block)
  | body statements ih =>
    change Gives _ _
    rw [Node.plan_text]
    exact gives_lines ih
  | assignment assigned valued => exact (gives_assignment around assigned valued).whole
  | undef dropped => exact (gives_undef dropped).whole
  | diagnostic reports said => exact (gives_diagnostic reports said).whole
  | located kinds place =>
    change Gives _ _
    rw [Node.plan_text]
    rcases kinds with rfl | rfl
    · exact follows _ _ (find_path place) place
    · exact gives_search around place
  | rule aimed each _ ih => exact gives_rule aimed ih
  | conditional opens tested held each ihTest ihBody ihClauses =>
    refine (gives_conditional ⟨tested.isNamed, held.isNamed,
      fun child member => (each child member).isNamed⟩
      (gives_test opens tested ?_) ihBody ihClauses).whole
    rintro rfl
    exact ihTest

/-! Whole units, with what they include. -/

theorem whole_included {place : Path} {rendered : Text} (single : place.OneLine)
    (whole : Zig.Whole rendered) : Zig.Whole (included place rendered) := by
  have oneLine : '\n' ∉ " included from ".toList ++ place.toText := by simpa using single.toText
  have remark := Zig.whole_comment oneLine
  unfold included
  split
  · rw [List.append_nil]
    exact remark
  · exact remark.below whole

theorem gives_inclusion (around : context.OneLine) {inner : Option (Context → Node → Render Text)}
    {path : Node} (found : node.find? .path = some path) (place : Shape (.phrase .path) path)
    (deeper : ∀ render, inner = some render → ∀ below source, below.OneLine →
      Gives (render { context with stack := below :: context.stack } (context.parse source))
        Zig.Whole) :
    Gives (inclusion inner context node) Zig.Whole := by
  simp only [inclusion, found, require_some, pure_bind]
  refine (gives_staticPath around place).bind fun requested single => ?_
  refine (gives_findUnit around single).bind fun unit oneLine => ?_
  split
  · exact gives_throw _
  · cases inner with
    | none => exact gives_throw _
    | some render =>
      refine (gives_note _).bind fun _ _ => ?_
      exact (deeper render rfl unit.1 unit.2 oneLine).bind fun _ whole =>
        gives_pure (whole_included oneLine whole)

theorem gives_unit (around : context.OneLine)
    (follows : ∀ node path, Node.find? node .path = some path → Shape (.phrase .path) path →
      Gives (follow node) Zig.Whole) (source : Text) :
    Gives ((Source.parse source).plan context follow).text Zig.Whole := by
  rw [Node.plan_text]
  refine gives_lines fun child member => ?_
  exact emits_of_shape around follows (Source.shape_of_parse source child member)

/-- Induction on how deep units may still be included. -/
theorem gives_render (depth : Nat) (around : context.OneLine) (reads : context.parse = Source.parse)
    (source : Text) : Gives ((Source.parse source).render depth context) Zig.Whole := by
  induction depth generalizing context source with
  | zero =>
    -- With no depth left, nothing renders an included unit.
    refine gives_unit around (fun node path found place => ?_) source
    exact gives_inclusion around found place (by simp)
  | succ depth ih =>
    refine gives_unit around (fun node path found place => ?_) source
    refine gives_inclusion around found place fun render same below text single => ?_
    obtain rfl := Option.some.inj same
    have again : context.parse text = Source.parse text := by rw [reads]
    rw [again]
    exact ih (around.below single) reads text

end Render

end BmakeZig
