import BmakeZig.Proofs.Compile.Remarks
import BmakeZig.Proofs.Render.Closed
import BmakeZig.Proofs.Render.Woven

/-! What a unit passes on when it is read from a source. Its rules are given nodes in a few roles only:
tokens are left to the node above them, identifiers are names, and comments keep to one line. As long
as no text around the unit holds a line break, every text that is passed on is a comment or a name, so
a reader of the program finds nothing in it. -/
namespace BmakeZig

/-- The roles of nodes that have their own rule applied. A phrase is an argument then, not a value. -/
def Role.isRendered : Role → Bool
  | .name | .condition | .entry | .body | .statement => true
  | .phrase kind => kind = .message || kind = .command || kind = .path
  | _ => false

/-- The nodes that have a rule applied in a unit that was read from a source. -/
inductive Node.IsRendered : Node → Prop where
  | unit (source : Text) : IsRendered (Source.parse source)
  | entries {line : Nat} {text : Text} {children : List Node}
      (each : ∀ child ∈ children, Shape .entry child) : IsRendered (.branch .ruleBody line text children)
  | shaped {role : Role} {node : Node} (rendered : role.isRendered = true) (shape : Shape role node) :
      IsRendered node

section

variable {role : Role} {node : Node}

theorem Node.isRendered_of_mem_clauseChildren {clauses : List Node}
    (each : ∀ clause ∈ clauses, Shape .clause clause) :
    ∀ child ∈ clauseChildren clauses, child.IsRendered := by
  induction clauses with
  | nil => simp [clauseChildren]
  | cons clause rest ih =>
    obtain ⟨first, others⟩ := List.forall_mem_cons.1 each
    have later := ih others
    cases first with
    | elseIf tested held =>
      have test : Node.IsRendered _ := .shaped rfl tested
      have body : Node.IsRendered _ := .shaped rfl held
      simpa [clauseChildren, namedChild?, namedChildren, branch, token, tested.isNamed, held.isNamed,
        test, body] using later
    | otherwise held =>
      have body : Node.IsRendered _ := .shaped rfl held
      simpa [clauseChildren, namedChild?, namedChildren, branch, token, held.isNamed, body] using later

theorem Node.isRendered_of_mem_conditionalChildren {test inner child : Node} {clauses : List Node}
    (named : node.namedChildren = test :: inner :: clauses) (tested : test.IsRendered)
    (held : inner.IsRendered) (each : ∀ clause ∈ clauses, Shape .clause clause)
    (member : child ∈ node.conditionalChildren) : child.IsRendered := by
  have first : node.namedChild? 0 = some test := by
    rw [namedChild?, named]
    rfl
  have second : node.namedChild? 1 = some inner := by
    rw [namedChild?, named]
    rfl
  rcases of_mem_conditionalChildren first second member with rfl | rfl | inside
  · exact tested
  · exact held
  · rw [named] at inside
    exact isRendered_of_mem_clauseChildren each child inside

theorem Shape.isRendered_of_mem_rendered (shape : Shape role node) (rendered : role.isRendered = true) :
    ∀ child ∈ node.rendered, child.IsRendered := by
  induction shape with
  | name | string | remark | comment | error | defined | assignment | undef =>
    simp [Node.rendered, Node.leaf, Node.branch]
  | phrase =>
    simp only [Role.isRendered, Bool.or_eq_true, decide_eq_true_eq] at rendered
    rcases rendered with (rfl | rfl) | rfl <;> simp [Node.rendered, Node.branch]
  | named _ ih => exact ih rfl
  | expansion inner => cases inner <;> simp [Node.rendered, Node.branch]
  | negated inner =>
    have operand : Node.IsRendered _ := .shaped rfl inner
    simpa [Node.rendered, Node.branch, Node.namedChild?, Node.namedChildren, Node.token, inner.isNamed]
      using operand
  | joined kinds first second =>
    have left : Node.IsRendered _ := .shaped rfl first
    have right : Node.IsRendered _ := .shaped rfl second
    rcases kinds with rfl | rfl | rfl <;>
      simp [Node.rendered, Node.operands, Node.branch, Node.namedChild?, Node.namedChildren, Node.token,
        first.isNamed, second.isNamed, left, right]
  | command _ modifying building inner =>
    intro child member
    have found : Node.find? _ .command = some child := Option.mem_toList.1 member
    have kind : child.kind = .command := by simpa using List.find?_some found
    -- The marks and the name of a built-in stand in front of the argument.
    rcases List.mem_append.1 (Node.mem_of_find found) with front | last
    · rcases Render.command_front modifying building front with other | ⟨other, _⟩
      · simp [other] at kind
      · simp [other] at kind
    · rw [List.mem_singleton.1 last]
      exact .shaped rfl inner
  | body statements => exact fun child member => .shaped rfl (statements child member)
  | diagnostic _ said =>
    have message : Node.IsRendered _ := .shaped rfl said
    simpa [Node.rendered, Node.branch, Node.child?] using message
  | located kinds => rcases kinds with rfl | rfl <;> simp [Node.rendered, Node.branch]
  | @rule _ bodyLine _ _ bodyText target _ aimed each =>
    have body : Node.IsRendered _ := @Node.IsRendered.entries bodyLine bodyText _ each
    have other : target.kind ≠ .ruleBody := by cases aimed <;> simp [Node.leaf]
    simpa [Node.rendered, Node.ruleChildren, Node.branch, Node.namedChild?, Node.namedChildren,
      Node.find?, Node.token, aimed.isNamed, other] using body
  | @conditional directive _ _ _ _ _ _ clauses opens tested held each =>
    have role : directive.testRole.isRendered = true := by cases directive <;> rfl
    have plain : clauses.filter (·.named) = clauses :=
      List.filter_eq_self.2 fun clause member => (each clause member).isNamed
    intro child
    apply Node.isRendered_of_mem_conditionalChildren _ (.shaped role tested) (.shaped rfl held) each
    simp [Node.namedChildren, Node.branch, Node.token, tested.isNamed, held.isNamed, plain]
  | _ => cases rendered

namespace Node.IsRendered

theorem of_mem_rendered (rendered : node.IsRendered) : ∀ child ∈ node.rendered, child.IsRendered := by
  cases rendered with
  | unit source => exact fun child member => .shaped rfl (Source.shape_of_parse source child member)
  | entries each => exact fun child member => .shaped rfl (each child member)
  | shaped rendered shape => exact shape.isRendered_of_mem_rendered rendered

theorem isNamed (rendered : node.IsRendered) : node.named = true := by
  cases rendered with
  | unit | entries => rfl
  | shaped _ shape => exact shape.isNamed

theorem newline_not_mem (rendered : node.IsRendered)
    (kind : node.kind = .comment ∨ node.kind = .buildCommand) : '\n' ∉ node.text := by
  cases rendered with
  | unit | entries => rcases kind with kind | kind <;> cases kind
  | shaped _ shape => exact shape.newline_not_mem_of_kind kind

theorem isName (rendered : node.IsRendered) (kind : node.kind = .identifier) :
    Text.isName node.text = true := by
  cases rendered with
  | unit | entries => cases kind
  | shaped rendered shape =>
    induction shape with
    | name named => exact named
    | named _ ih => exact ih kind rfl
    | expansion inner => cases inner <;> cases kind
    | joined kinds => rcases kinds with rfl | rfl | rfl <;> cases kind
    | located kinds => rcases kinds with rfl | rfl <;> cases kind
    | phrase =>
      obtain rfl : _ = Kind.identifier := kind
      cases rendered
    | expanded => cases rendered
    | _ => cases kind

theorem path (rendered : node.IsRendered) (kind : node.kind = .inclusion ∨ node.kind = .search) :
    ∃ path, node.find? .path = some path ∧ Shape (.phrase .path) path := by
  cases rendered with
  | unit | entries => rcases kind with kind | kind <;> cases kind
  | shaped rendered shape =>
    induction shape with
    | named _ ih => exact ih kind rfl
    | expansion inner => cases inner <;> rcases kind with kind | kind <;> cases kind
    | joined kinds => rcases kinds with rfl | rfl | rfl <;> rcases kind with kind | kind <;> cases kind
    | located kinds place => exact ⟨_, Render.find_path place, place⟩
    | phrase => rcases kind with rfl | rfl <;> cases rendered
    | expanded => cases rendered
    | _ => rcases kind with kind | kind <;> cases kind

end Node.IsRendered

end

/-! Texts of one line. -/

namespace Zig

variable {text : Text}

theorem isRemark_line (oneLine : '\n' ∉ text) : isRemark ('/' :: '/' :: text) = true := by
  rw [isRemark, Text.splitOn_of_not_mem (by simpa using oneLine)]
  rfl

theorem isRemark_of_remarks (remarks : Remarks text) : isRemark text = true := by
  apply List.all_eq_true.2
  intro line listed
  have plain := remarks line listed
  unfold isPlainRemark at plain
  split at plain
  · rfl
  · cases plain

end Zig

namespace Render

variable {context : Context} {node : Node}

theorem gives_follow (around : context.OneLine) (reads : context.parse = Source.parse) {path : Node}
    (found : node.find? .path = some path) (place : Shape (.phrase .path) path) :
    Gives (context.follow node) Zig.Whole := by
  apply gives_inclusion around found place
  intro render same below source single
  split at same
  · obtain rfl := Option.some.inj same
    have again : context.parse source = Source.parse source := by rw [reads]
    rw [again]
    exact gives_render _ (around.below single) reads source
  · cases same

theorem Gives.any {α : Type} {action : Render α} {property : α → Prop} (gives : Gives action property) :
    Gives action fun _ => True :=
  fun pass value after before ran => ⟨trivial, (gives pass value after before ran).2⟩

theorem gives_rendered (around : context.OneLine) (reads : context.parse = Source.parse)
    (rendered : node.IsRendered) : Gives (node.plan context context.follow).text fun _ => True := by
  have follows (node path : Node) (found : node.find? .path = some path)
      (place : Shape (.phrase .path) path) : Gives (context.follow node) Zig.Whole :=
    gives_follow around reads found place
  cases rendered with
  | unit source => exact (gives_unit around follows source).any
  | entries each =>
    rw [Node.plan_text]
    have lines := gives_lines fun entry member => emits_of_shape around follows (each entry member)
    exact lines.any
  | @shaped role _ rendered shape =>
    have emits := emits_of_shape around follows shape
    cases role with
    | name =>
      rw [Node.plan_text]
      cases shape
      exact gives_pure trivial
    | condition | entry | body | statement => exact Gives.any emits
    | phrase kind =>
      have kinds : kind = .message ∨ kind = .command ∨ kind = .path := by
        simpa [Role.isRendered, or_assoc] using rendered
      exact (gives_phraseText kinds shape).any
    | _ => cases rendered

theorem gives_located (around : context.OneLine) {path : Node} (found : node.find? .path = some path)
    (place : Shape (.phrase .path) path) : Gives (located context node) fun unit => unit.1.OneLine := by
  unfold located
  rw [found, require_some, pure_bind]
  exact (gives_staticPath around place).bind fun requested single => gives_findUnit around single

end Render

namespace Moment

variable {start moment next : Moment} {text : Text}

/-- A moment in a unit read from a source around which no text holds a line break. -/
structure OneLine (moment : Moment) : Prop where
  reads : moment.context.parse = Source.parse
  rendered : moment.node.IsRendered
  around : moment.context.OneLine
  pass : moment.pass.OneLine

namespace OneLine

theorem call (oneLine : moment.OneLine) (calls : Calls moment next) : next.OneLine := by
  cases calls with
  | @child before later child said pass rendered ran =>
    have each := oneLine.rendered.of_mem_rendered
    rw [rendered] at each
    constructor
    · exact oneLine.reads
    · exact each child (List.mem_append_right _ List.mem_cons_self)
    · exact oneLine.around
    · have texts : Render.Gives (moment.context.texts before) fun _ => True := by
        apply (Render.gives_texts _).any
        · exact fun _ => True
        · intro part member
          obtain ⟨node, listed, rfl⟩ := List.mem_map.1 member
          have rendered := each node (List.mem_append_left _ listed)
          exact Render.gives_rendered oneLine.around oneLine.reads rendered
      exact (texts _ _ _ oneLine.pass ran).2
  | @unit place source middle includes located closed room =>
    obtain ⟨path, found, place⟩ := oneLine.rendered.path (.inl includes)
    obtain ⟨single, kept⟩ := Render.gives_located oneLine.around found place _ _ _ oneLine.pass located
    constructor
    · exact oneLine.reads
    · rw [inside, oneLine.reads]
      exact .unit source
    · exact oneLine.around.below single
    · exact ⟨kept.environment, kept.searched⟩

theorem reaches (oneLine : start.OneLine) (reached : Reaches start moment) : moment.OneLine := by
  induction reached with
  | refl => exact oneLine
  | tail before calls ih => exact ih.call calls

/-- What the moment passes on is a comment or a name. -/
theorem isQuiet (oneLine : moment.OneLine) (copies : moment.Copies text) : Zig.isQuiet text = true := by
  apply Bool.or_eq_true_iff.2
  cases copies with
  | own copies =>
    cases copies with
    | name kind => exact .inr (Zig.isSilent_of_name (oneLine.rendered.isName kind))
    | comment kind =>
      have single := Render.newline_not_mem_remark (oneLine.rendered.newline_not_mem (.inl kind))
      rw [Render.comment_eq]
      exact .inl (Zig.isRemark_line single)
    | unread kind => exact .inl (Zig.isRemark_of_remarks (Zig.remarks_unreadSpan _ _))
    | command kind =>
      have single := oneLine.rendered.newline_not_mem (.inr kind)
      have behind : '\n' ∉ ' ' :: moment.node.text := by simp [single]
      exact .inl (Zig.isRemark_line behind)
    | token ruleless unnamed => cases oneLine.rendered.isNamed.symm.trans unnamed
  | @folder path directory _ searches given expanded =>
    obtain ⟨other, found, place⟩ := oneLine.rendered.path (.inr searches)
    obtain rfl := Option.some.inj (given.symm.trans found)
    have single := (Render.gives_staticPath oneLine.around place _ _ _ oneLine.pass expanded).1
    have behind : '\n' ∉ " search path: ".toList ++ directory := by simpa using single
    exact .inl (Zig.isRemark_line behind)
  | @place place source middle includes located =>
    obtain ⟨path, found, shape⟩ := oneLine.rendered.path (.inl includes)
    have single := (Render.gives_located oneLine.around found shape _ _ _ oneLine.pass located).1.toText
    have behind : '\n' ∉ " included from ".toList ++ place.toText := by simpa using single
    exact .inl (Zig.isRemark_line behind)

end OneLine

end Moment

/-- In a unit read from a source, among texts of one line, whatever is passed on is quiet. -/
theorem Compile.quiet_of_source {load : Loader} {settings : Settings} {process : ProcessEnvironment}
    {origin : Option Text} {environment : Environment}
    (directories : ∀ directory ∈ settings.includeDirs, '\n' ∉ directory)
    (separator : '\n' ∉ settings.appendSeparator) (ambient : process.OneLine)
    (place : ∀ text ∈ origin, '\n' ∉ text) (values : environment.OneLine) (source : Text) :
    ∀ moment passed,
      (start (around Source.parse load settings process origin) (Source.parse source)
        environment).Reaches moment → moment.Copies passed → Zig.isQuiet passed = true := by
  intro moment passed reached copies
  have root : ∀ path ∈ origin.map fun text => (Path.ofText text).normalize, path.OneLine := by
    intro path member
    obtain ⟨text, given, rfl⟩ := Option.map_eq_some_iff.1 member
    exact (Path.oneLine_ofText (place text given)).normalize
  have first : (start (around Source.parse load settings process origin) (Source.parse source)
      environment).OneLine := by
    constructor
    · rfl
    · exact .unit source
    · exact ⟨root, by simp [start, around], directories, separator, ambient⟩
    · exact ⟨values, by simp [start]⟩
  exact (first.reaches reached).isQuiet copies

end BmakeZig
