import BmakeZig.Proofs.Render.Change
import BmakeZig.Proofs.Zig.Woven

/-! What the renderer weaves. The second phase of a rule puts the texts of the nodes below it together
with text of its own, and the variables it names itself are live at that time or written by its node.
A few rules pass text of the unit on as it is. Each moment weaves in known variables, the texts of the
moments it calls and those it passes on; over a whole run, a reader of the text meets variables that
are known, or texts that were passed on. -/
namespace BmakeZig

section

variable {threads : Threads} {environment : Environment}

/-- Every live variable is known. -/
def Threads.Covers (threads : Threads) (environment : Environment) : Prop :=
  ∀ name, environment.contains name = true → threads.known name

theorem Fragment.woven_term (live : threads.Covers environment) (fragment : Fragment) :
    Zig.Woven threads false (fragment.term environment) := by
  cases fragment with
  | literal text => exact .loose (.quoted text)
  | reference name mode =>
    have value : Zig.Woven threads false (if environment.contains name then Zig.variableNamed name
        else Zig.processVariableOrEmpty name) := by
      split
      · next held => exact .access (live name held)
      · exact .loose (Zig.woven_processVariableOrEmpty name)
    cases mode with
    | recursive | immediate => exact value
    | stripping => exact .loose value.withoutEndSlashes

theorem Fragment.woven_expression (live : threads.Covers environment) (fragments : List Fragment) :
    Zig.Woven threads false (expression environment fragments) := by
  apply Zig.woven_sequence
  intro text member
  obtain ⟨fragment, _, rfl⟩ := List.mem_map.1 member
  exact woven_term live fragment

namespace Render

variable {α : Type} {context : Context} {node : Node} {test body : Text} {said : List Text}

/-- Where the live variables are known, the action weaves its text. -/
def Weaves (threads : Threads) (action : Render Text) : Prop :=
  ∀ (before after : Pass) (text : Text), threads.Covers before.environment →
    action before = .ok text after → Zig.Woven threads false text

theorem weaves_pure {apart : Bool} {text : Text} (woven : Zig.Woven threads apart text) :
    Weaves threads (pure text) := by
  intro before after said live ran
  cases ran
  exact woven.loosen

theorem weaves_throw (fault : Fault) : Weaves threads (throw fault) := by
  intro before after text live ran
  cases ran

theorem Modest.weaves {action : Render α} {next : α → Render Text} (modest : Modest action)
    (each : ∀ value, Weaves threads (next value)) : Weaves threads (action >>= next) := by
  intro before after text live ran
  obtain ⟨value, middle, first, second⟩ := of_bind_ok ran
  apply each value _ _ _ _ second
  rw [(modest.ok first).environment]
  exact live

theorem Weaves.bind {action : Render Text} {next : Text → Render Text} (weaves : Weaves threads action)
    (modest : Modest action)
    (each : ∀ text, Zig.Woven threads false text → Weaves threads (next text)) :
    Weaves threads (action >>= next) := by
  intro before after text live ran
  obtain ⟨value, middle, first, second⟩ := of_bind_ok ran
  apply each value (weaves _ _ _ live first) _ _ _ _ second
  rw [(modest.ok first).environment]
  exact live

/-! Values. -/

theorem weaves_value (node : Node) : Weaves threads (value node) := by
  refine (modest_fragments node).weaves fun found => ?_
  intro before after text live ran
  cases ran
  exact Fragment.woven_expression live found

theorem woven_assignmentText {settings : Settings} {name : Text} {appends : Bool}
    {kept : List Fragment} (live : threads.Covers environment) (known : threads.known name) :
    Zig.Woven threads true (assignmentText settings environment name appends kept) := by
  have value := Fragment.woven_expression live kept
  unfold assignmentText
  split
  · unfold appendStatement
    refine .set known (Zig.woven_concat fun text member => ?_)
    rcases List.mem_append.1 member with before | last
    · rcases List.mem_cons.1 before with rfl | between
      · exact .access known
      · split at between
        · cases between
        · rw [List.mem_singleton.1 between]
          exact .loose (.quoted _)
    · rw [List.mem_singleton.1 last]
      exact value
  · exact value.set known

theorem weaves_assignment {settings : Settings} {appends expands : Bool}
    (targets : ∀ target, node.find? .identifier = some target → threads.known target.text) :
    Weaves threads (assignment settings node appends expands) := by
  rw [assignment_eq]
  cases aimed : node.find? .identifier with
  | none => exact weaves_throw _
  | some target =>
    rw [require_some, pure_bind]
    refine (modest_valueFragments node).weaves fun written => ?_
    intro before after text live ran
    obtain ⟨notes, stored⟩ := store_ok settings target.text node.line appends expands written before
    cases ran.symm.trans stored
    exact (woven_assignmentText live (targets target aimed)).loosen

theorem weaves_undef
    (targets : ∀ target, node.find? .identifier = some target → threads.known target.text) :
    Weaves threads (undef node) := by
  intro before after text live ran
  unfold undef at ran
  cases aimed : node.find? .identifier with
  | none =>
    rw [aimed] at ran
    cases ran
  | some target =>
    rw [aimed] at ran
    cases ran
    exact .loose ((Zig.Woven.quoted []).set (targets target aimed))

theorem weaves_isDefined (node : Node) : Weaves threads (isDefined node) :=
  (modest_require _ _ _).weaves fun _ => weaves_pure (Zig.woven_isSet _)

/-! Rules that put texts together. -/

theorem woven_headD (each : ∀ text ∈ said, Zig.Woven threads false text) {other : Text}
    (otherwise : Zig.Woven threads true other) : Zig.Woven threads false (said.headD other) := by
  cases said with
  | nil => exact otherwise.loosen
  | cons text said => exact each text List.mem_cons_self

theorem woven_guarded {apart inner : Bool} (tested : Zig.Woven threads apart test)
    (held : Zig.Woven threads inner body) : Zig.Woven threads true (guarded test body) := by
  have opening : Zig.Woven threads true ("if (".toList ++ test ++ ") ".toList) :=
    tested.between (by decide) (by decide) (by decide)
  exact opening.append held.block

theorem woven_bracketed {apart : Bool} {text : Text} (woven : Zig.Woven threads apart text) :
    Zig.Woven threads true (bracketed text) := by
  have within : Zig.Woven threads true (['('] ++ text ++ [')']) :=
    woven.between (by decide) (by decide) (by decide)
  exact within

theorem woven_negated {apart : Bool} {text : Text} (woven : Zig.Woven threads apart text) :
    Zig.Woven threads apart ('!' :: text) := by
  have mark : Zig.Woven threads true ['!'] := .fixed (by decide)
  exact mark.append woven

theorem woven_conjunct {operand : Kind × Text} (woven : Zig.Woven threads false operand.2) :
    Zig.Woven threads false (conjunct operand) := by
  unfold conjunct
  split
  · exact .loose (woven_bracketed woven)
  · exact woven

theorem woven_negand {operand : Kind × Text} (woven : Zig.Woven threads false operand.2) :
    Zig.Woven threads false (negand operand) := by
  unfold negand
  split
  · exact .loose (woven_bracketed woven)
  · exact .loose (woven_bracketed woven)
  · exact woven

section

variable (each : ∀ text ∈ said, Zig.Woven threads false text)

include each

theorem woven_closeTest (test : Node) : Zig.Woven threads false (closeTest node test said).1 ∧
    ∀ text ∈ (closeTest node test said).2, Zig.Woven threads false text := by
  have first := woven_headD each .nil
  have later : ∀ text ∈ said.tail, Zig.Woven threads false text :=
    fun text member => each text (List.mem_of_mem_tail member)
  unfold closeTest
  split
  · exact ⟨.loose (Zig.woven_isSet _), each⟩
  split
  · exact ⟨.loose (Zig.woven_isUnset _), each⟩
  split
  · exact ⟨.loose first.fileExists, later⟩
  split
  · exact ⟨.loose (woven_negated first.fileExists), later⟩
  · exact ⟨first, later⟩

theorem weaves_closeClauses (branches : List Node) :
    Weaves threads (closeClauses node branches said) := by
  induction branches generalizing said with
  | nil => exact weaves_pure .nil
  | cons branch rest ih =>
    have word : Zig.Woven threads true " else ".toList := .fixed (by decide)
    have first := woven_headD each .nil
    have later : ∀ text ∈ said.tail, Zig.Woven threads false text :=
      fun text member => each text (List.mem_of_mem_tail member)
    unfold closeClauses
    split
    · have second := woven_headD later .nil
      have behind : ∀ text ∈ said.drop 2, Zig.Woven threads false text :=
        fun text member => each text (List.mem_of_mem_drop member)
      refine (modest_require _ _ _).weaves fun _ => (modest_require _ _ _).weaves fun _ => ?_
      refine (ih behind).bind (modest_closeClauses _ _ _) fun more woven => ?_
      exact weaves_pure ((word.append (woven_guarded first second)).append woven)
    · refine (modest_require _ _ _).weaves fun _ => ?_
      refine (ih later).bind (modest_closeClauses _ _ _) fun more woven => ?_
      exact weaves_pure ((word.append first.block).append woven)
    · exact weaves_throw _

theorem weaves_closeConditional : Weaves threads (closeConditional node said) := by
  refine (modest_require _ _ _).weaves fun test => (modest_require _ _ _).weaves fun _ => ?_
  obtain ⟨tested, left⟩ := @woven_closeTest threads node said each test
  have held := woven_headD left .nil
  have clauses := @weaves_closeClauses threads node _
    (fun text member => left text (List.mem_of_mem_tail member)) (node.namedChildren.drop 2)
  refine clauses.bind (modest_closeClauses _ _ _) fun more woven => ?_
  exact weaves_pure ((woven_guarded tested held).append woven)

theorem weaves_closeOperands {join : Kind × Text → Kind × Text → Text}
    (joined : ∀ left right : Kind × Text, Zig.Woven threads false left.2 →
      Zig.Woven threads false right.2 → Zig.Woven threads false (join left right)) :
    Weaves threads (closeOperands node join said) := by
  have first := woven_headD each .nil
  have second := woven_headD (fun text member => each text (List.mem_of_mem_tail member)) .nil
  refine (modest_require _ _ _).weaves fun left => (modest_require _ _ _).weaves fun right => ?_
  exact weaves_pure (joined (left.kind, _) (right.kind, _) first second)

end

theorem weaves_closeDiagnostic {message : Text} (woven : Zig.Woven threads false message) :
    Weaves threads (closeDiagnostic node message) := by
  refine (modest_require _ _ _).weaves fun marker => ?_
  unfold diagnose
  cases Marker.ofDirective? marker.text with
  | some known => exact weaves_pure (known.woven_call woven)
  | none => exact weaves_throw _

theorem weaves_closeRule (woven : Zig.Woven threads false body) :
    Weaves threads (closeRule node body) := by
  refine (modest_require _ _ _).weaves fun target => ?_
  unfold aimed
  split
  · exact weaves_pure woven
  · intro before after text live ran
    cases ran
    exact .loose (woven.buildStep _)
  · exact weaves_throw _

theorem woven_plainCommand (modifiers : Text) {command : Text}
    (woven : Zig.Woven threads false command) :
    Zig.Woven threads true (plainCommand modifiers command) := by
  unfold plainCommand
  split
  · exact woven.print "\x7bs\x7d\n".toList
  · split
    · exact woven.print "\x7bs\x7d".toList
    · exact woven.run _ _

theorem woven_builtin {name command call : Text} (woven : Zig.Woven threads false command)
    (known : builtin? name command = some call) : Zig.Woven threads true call := by
  unfold builtin? at known
  split at known
  · cases known
    exact woven.between (by decide) (by decide) (by decide)
  split at known
  · cases known
    have arguments : Zig.Woven threads true
        (" ".toList ++ command ++ ", std.time.timestamp() ".toList) :=
      woven.between (by decide) (by decide) (by decide)
    exact arguments.print "\x7bs\x7d\x7bd\x7d\n".toList
  split at known
  · cases known
    exact woven.print "==> \x7bs\x7d\n".toList
  · cases known

theorem woven_included {place : Path} {text : Text}
    (copied : threads.copied ("// included from ".toList ++ place.toText))
    (woven : Zig.Woven threads false text) :
    Zig.Woven threads false (included place text) := by
  unfold included
  split
  · rw [List.append_nil]
    exact .copy copied
  · have newline : Zig.Woven threads true ['\n'] := .fixed rfl
    exact .stop (.copy copied) (by decide) (newline.append woven)

end Render

/-- Whether nodes of a kind are rendered by a rule. The others belong to the node above them. -/
def Kind.hasRule : Kind → Bool
  | .elifClause | .elseClause | .expansionMod | .always | .targetDecl | .commandMod | .builtinCommand
  | .token | .other _ => false
  | _ => true

namespace Node

variable {context : Context} {node : Node} {said : List Text}

/-- The texts of the unit that the rule of a node passes on, whatever the pass. -/
inductive Copies (node : Node) : Text → Prop where
  | name (kind : node.kind = .identifier) : Copies node node.text
  | comment (kind : node.kind = .comment) : Copies node (Render.comment node.text)
  | unread (kind : node.kind = .error) : Copies node (Zig.unreadSpan node.text node.line)
  | command {name : Node} {command : Text} (kind : node.kind = .buildCommand)
      (named : node.find? .builtinCommand = some name)
      (unknown : Render.builtin? name.text command = none) : Copies node ("// ".toList ++ node.text)
  | token (ruleless : node.kind.hasRule = false) (unnamed : node.named = false) :
      Copies node node.text

section

variable (copied : ∀ {text}, node.Copies text → threads.copied text)

include copied

theorem weaves_closeCommand (kind : node.kind = .buildCommand) {command : Text}
    (woven : Zig.Woven threads false command) :
    Render.Weaves threads (Render.closeCommand node command) := by
  unfold Render.closeCommand
  split
  · exact Render.weaves_pure (Render.woven_plainCommand _ woven)
  · next name named =>
    split
    · next call known => exact Render.weaves_pure (Render.woven_builtin woven known)
    · next unknown =>
      refine (Render.modest_warn _ _).weaves fun _ => ?_
      exact Render.weaves_pure (.copy (copied (.command kind named unknown)))

theorem weaves_ruleless (ruleless : node.kind.hasRule = false) :
    Render.Weaves threads
      (if node.named then throw (Render.unknown node) else Render.verbatim node) := by
  split
  · exact Render.weaves_throw _
  · next unnamed =>
    refine (Render.modest_warn _ _).weaves fun _ => ?_
    exact Render.weaves_pure (.copy (copied (.token ruleless (Bool.eq_false_iff.2 unnamed))))

/-- One rule, one case. -/
theorem weaves_finish (other : node.kind ≠ .inclusion) (fixed : node.kind ≠ .search)
    (targets : ∀ name ∈ node.writes, threads.known name)
    (each : ∀ text ∈ said, Zig.Woven threads false text) :
    Render.Weaves threads (node.finish context said) := by
  unfold finish
  cases kind : node.kind with
  | inclusion => exact absurd kind other
  | search => exact absurd kind fixed
  | sourceFile | body | ruleBody =>
    exact Render.weaves_pure (.joinWith (by decide) (by decide) each)
  | conditional => exact Render.weaves_closeConditional each
  | diagnostic => exact Render.weaves_closeDiagnostic (Render.woven_headD each (.quoted []))
  | not =>
    refine (Render.modest_require _ _ _).weaves fun operand => ?_
    have woven := Render.woven_headD each .nil
    have inner := @Render.woven_negand threads (operand.kind, _) woven
    exact Render.weaves_pure (Render.woven_negated inner)
  | and =>
    have word : Zig.Woven threads true " and ".toList := .fixed (by decide)
    refine Render.weaves_closeOperands each fun left right first second => ?_
    have opening := Zig.Woven.stop (Render.woven_conjunct first) (by decide) word
    exact opening.append (Render.woven_conjunct second)
  | or =>
    have word : Zig.Woven threads true " or ".toList := .fixed (by decide)
    refine Render.weaves_closeOperands each fun left right first second => ?_
    exact (Zig.Woven.stop first (by decide) word).append second
  | eq =>
    exact Render.weaves_closeOperands each fun left right first second => .loose (first.equal second)
  | rule => exact Render.weaves_closeRule (Render.woven_headD each .nil)
  | buildCommand => exact weaves_closeCommand copied kind (Render.woven_headD each (.quoted []))
  | comment =>
    simp only [Render.node, kind]
    exact Render.weaves_pure (.copy (copied (.comment kind)))
  | identifier =>
    simp only [Render.node, kind]
    exact Render.weaves_pure (.copy (copied (.name kind)))
  | error =>
    simp only [Render.node, kind]
    exact Render.weaves_pure (.copy (copied (.unread kind)))
  | string =>
    simp only [Render.node, kind]
    exact Render.weaves_pure (.quoted _)
  | isDefined =>
    simp only [Render.node, kind]
    exact Render.weaves_isDefined node
  | expansion | value | literal | message | command | path =>
    simp only [Render.node, kind]
    exact Render.weaves_value node
  | assignment appends expands =>
    simp only [Render.node, kind]
    apply Render.weaves_assignment
    intro target aimed
    apply targets
    simp [writes, kind, aimed]
  | undef =>
    simp only [Render.node, kind]
    apply Render.weaves_undef
    intro target aimed
    apply targets
    simp [writes, kind, aimed]
  | _ =>
    simp only [Render.node, kind]
    exact weaves_ruleless copied (by rw [kind]; rfl)

end

end Node

end

namespace Moment

variable {start moment : Moment} {text : Text} {after : Pass}

/-- The texts that a moment passes on: those of its node, the folder it searches from here on, and the
place of the unit it includes. -/
inductive Copies (moment : Moment) : Text → Prop where
  | own {text : Text} (copies : moment.node.Copies text) : Copies moment text
  | folder {path : Node} {directory : Text} {middle : Pass} (searches : moment.node.kind = .search)
      (given : moment.node.find? .path = some path)
      (expanded : Render.staticPath moment.context path moment.pass = .ok directory middle) :
      Copies moment ("// search path: ".toList ++ directory)
  | place {place : Path} {source : Text} {middle : Pass} (includes : moment.node.kind = .inclusion)
      (located : Render.located moment.context moment.node moment.pass = .ok (place, source) middle) :
      Copies moment ("// included from ".toList ++ place.toText)

/-- What a moment weaves in: variables of the given names, the texts of the moments it calls and those
it passes on itself. -/
def threads (moment : Moment) (names : List Text) : Threads where
  known name := name ∈ names
  copied text := (∃ next after, Calls moment next ∧ next.run = .ok text after) ∨ moment.Copies text

/-- A search says nothing but the folder. -/
theorem copies_of_search (searches : moment.node.kind = .search) (ran : moment.run = .ok text after) :
    moment.Copies text := by
  rw [run_of_bare (by simp only [Node.rendered, searches]) (by simp [searches])] at ran
  simp only [Node.finish, Render.node, searches] at ran
  unfold Render.search at ran
  obtain ⟨path, before, required, rest⟩ := Render.of_bind_ok ran
  obtain ⟨given, rfl⟩ := Render.of_require required
  obtain ⟨directory, middle, expanded, rest⟩ := Render.of_bind_ok rest
  cases rest
  exact .folder searches given expanded

/-- Whatever variable a moment of the run weaves in itself has one of the names. -/
structure Supplied (start : Moment) (names : List Text) : Prop where
  live : ∀ {moment : Moment} {said : List Text} {middle : Pass}, Reaches start moment →
    moment.context.texts moment.node.rendered moment.pass = .ok said middle →
    ∀ name, middle.environment.contains name = true → name ∈ names
  targets : ∀ {moment : Moment}, Reaches start moment → ∀ name ∈ moment.node.writes, name ∈ names

namespace Supplied

variable {names : List Text}

theorem woven (supplied : Supplied start names) (reached : Reaches start moment)
    (ran : moment.run = .ok text after) : Zig.Woven (moment.threads names) false text := by
  rcases of_run_ok ran with ⟨other, said, middle, first, second⟩ |
    ⟨includes, place, source, middle, inner, located, closed, room, called⟩
  · by_cases searches : moment.node.kind = .search
    · exact .copy (.inr (copies_of_search searches ran))
    · have each : ∀ text ∈ said, Zig.Woven (moment.threads names) false text := by
        intro text member
        obtain ⟨next, last, calls, ran⟩ := called_of_mem first member
        exact .copy (.inl ⟨next, last, calls, ran⟩)
      have weaves := @Node.weaves_finish (moment.threads names) moment.context moment.node said
        (fun copies => .inr (.own copies)) other searches (supplied.targets reached) each
      exact weaves _ _ _ (supplied.live reached first) second
  · have calls := Calls.unit includes located closed room
    have whole := run_of_room includes located closed room
    rw [called] at whole
    cases ran.symm.trans whole
    exact Render.woven_included (.inr (.place includes located)) (.copy (.inl ⟨_, _, calls, called⟩))

/-- Induction on the calls. Where every text that is passed on from here on is quiet, a reader meets
variables of the given names and no others. -/
theorem confined (supplied : Supplied start names) (reached : Reaches start moment)
    (ran : moment.run = .ok text after)
    (quiet : ∀ later passed, Reaches moment later → later.Copies passed → Zig.isQuiet passed = true) :
    Zig.Confined (· ∈ names) text := by
  induction moment using wellFounded_calls.induction generalizing text after with
  | _ moment ih =>
    apply (supplied.woven reached ran).confined
    rintro inner (⟨next, last, calls, called⟩ | copies)
    · apply ih next calls (reached.tail calls) called
      intro later passed onward
      exact quiet later passed (.head calls onward)
    · exact Zig.confined_quiet (quiet moment inner .refl copies)

end Supplied

end Moment

end BmakeZig
