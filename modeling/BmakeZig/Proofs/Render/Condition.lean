import BmakeZig.Proofs.Render.Straight
import BmakeZig.Proofs.Zig.Formula

/-! Conditions keep their meaning. The renderer brackets an operand only where it would otherwise be
torn apart: alternatives inside a conjunction, and either of the two under a negation. The text of a
condition, read as the language binds it, is therefore a formula of the tree's own tests in the tree's
order, true in the same cases (`condition_conveys`). -/
namespace BmakeZig

open Zig (Formula Sign Token)

/-- A test that has no conditions below it. -/
def Node.isTest (node : Node) : Bool :=
  match node.kind with
  | .identifier | .string | .expansion _ | .isDefined => true
  | _ => false

/-- The tree is a condition, and the formula is the one it stands for. Its operands are the topmost
tests and equalities of the tree. -/
inductive Node.Condition : Node → Formula Node → Prop where
  | test {node : Node} (leaf : node.isTest = true) : Condition node (.operand node)
  | eq {node left right : Node} {leftFormula rightFormula : Formula Node} (kind : node.kind = .eq)
      (first : node.namedChild? 0 = some left) (second : node.namedChild? 1 = some right)
      (leftCondition : Condition left leftFormula) (rightCondition : Condition right rightFormula) :
      Condition node (.operand node)
  | not {node inner : Node} {formula : Formula Node} (kind : node.kind = .not)
      (first : node.namedChild? 0 = some inner) (condition : Condition inner formula) :
      Condition node (.not formula)
  | and {node left right : Node} {leftFormula rightFormula : Formula Node} (kind : node.kind = .and)
      (first : node.namedChild? 0 = some left) (second : node.namedChild? 1 = some right)
      (leftCondition : Condition left leftFormula) (rightCondition : Condition right rightFormula) :
      Condition node (.and leftFormula rightFormula)
  | or {node left right : Node} {leftFormula rightFormula : Formula Node} (kind : node.kind = .or)
      (first : node.namedChild? 0 = some left) (second : node.namedChild? 1 = some right)
      (leftCondition : Condition left leftFormula) (rightCondition : Condition right rightFormula) :
      Condition node (.or leftFormula rightFormula)

namespace Render

mutual

/-- The text is made of signs whose operands are spelled by their nodes, and it is read as a formula
of the same operands, from left to right, that holds for the same truth values of them. -/
inductive Conveys (renders : Node → Text → Prop) : Formula Node → Text → Prop where
  | read {formula : Formula Node} {signs : List (Sign (Node × Text))} {read : Formula (Node × Text)}
      (understood : Formula.ofSigns? signs = some read)
      (operands : read.operands.map Prod.fst = formula.operands)
      (truth : ∀ truth, read.holds truth 0 = formula.holds truth 0)
      (each : ∀ operand text, .operand (operand, text) ∈ signs → Spells renders operand text) :
      Conveys renders formula (Sign.spell Prod.snd signs)

/-- The text of an operand: that of a test as it is rendered, and the call that compares two texts,
each of which conveys its side of the equality. -/
inductive Spells (renders : Node → Text → Prop) : Node → Text → Prop where
  | test {node : Node} {text : Text} (leaf : node.isTest = true) (rendered : renders node text) :
      Spells renders node text
  | eq {node left right : Node} {leftFormula rightFormula : Formula Node} {leftText rightText : Text}
      (kind : node.kind = .eq) (first : node.namedChild? 0 = some left)
      (second : node.namedChild? 1 = some right) (leftCondition : left.Condition leftFormula)
      (rightCondition : right.Condition rightFormula) (leftSide : Conveys renders leftFormula leftText)
      (rightSide : Conveys renders rightFormula rightText) :
      Spells renders node (Zig.equal leftText rightText)

end

variable {renders : Node → Text → Prop} {f g : Formula Node} {text left right : Text}
  {level : Formula.Level}

/-- The text conveys the formula wherever tokens of the level may stand. -/
def Stands (renders : Node → Text → Prop) (level : Formula.Level) (formula : Formula Node)
    (text : Text) : Prop :=
  ∃ (signs : List (Sign (Node × Text))) (tokens : List (Token (Node × Text)))
    (written : Formula (Node × Text)), Sign.spell Prod.snd signs = text ∧
      Sign.CutInto signs tokens ∧ Formula.Reads tokens written level ∧
      written.map Prod.fst = formula ∧
      ∀ operand text, .operand (operand, text) ∈ signs → Spells renders operand text

namespace Stands

theorem operand {node : Node} (spells : Spells renders node text) :
    Stands renders .tight (.operand node) text := by
  refine ⟨[.operand (node, text)], _, _, ?_, .operand _, .operand _, rfl, ?_⟩
  · simp [Sign.spell]
  · intro operand spelled member
    simp only [List.mem_singleton, Sign.operand.injEq, Prod.mk.injEq] at member
    obtain ⟨rfl, rfl⟩ := member
    exact spells

theorem not (stands : Stands renders .tight f text) : Stands renders .tight f.not ('!' :: text) := by
  obtain ⟨signs, tokens, written, rfl, cut, reads, rfl, each⟩ := stands
  refine ⟨_, _, _, ?_, cut.negated, reads.not, rfl, ?_⟩
  · simp
  · intro operand spelled member
    exact each operand spelled (by simpa [Sign.ofText] using member)

theorem bracketed (stands : Stands renders level f text) :
    Stands renders .tight f (bracketed text) := by
  obtain ⟨signs, tokens, written, rfl, cut, reads, rfl, each⟩ := stands
  refine ⟨_, _, _, ?_, cut.bracketed, reads.alternatives.bracketed, rfl, ?_⟩
  · simp [Render.bracketed]
  · intro operand spelled member
    exact each operand spelled (by simpa [Sign.ofText] using member)

theorem conjuncts (stands : Stands renders .tight f text) : Stands renders .conjuncts f text := by
  obtain ⟨signs, tokens, written, spelled, cut, reads, same, each⟩ := stands
  exact ⟨signs, tokens, written, spelled, cut, reads.conjuncts, same, each⟩

theorem alternatives (stands : Stands renders level f text) : Stands renders .alternatives f text := by
  obtain ⟨signs, tokens, written, spelled, cut, reads, same, each⟩ := stands
  exact ⟨signs, tokens, written, spelled, cut, reads.alternatives, same, each⟩

theorem joined (word : Text) {token : Token (Node × Text)}
    {join : ∀ {α}, Formula α → Formula α → Formula α}
    (named : word.all Text.isNameChar = true) (means : Sign.wordTokens? word = some [token])
    (map : ∀ f g : Formula (Node × Text),
      (join f g).map Prod.fst = join (f.map Prod.fst) (g.map Prod.fst))
    (reads : ∀ {tokens more f g}, Formula.Reads tokens f level → Formula.Reads more g level →
      Formula.Reads (tokens ++ token :: more) (join f g) level)
    (front : Stands renders level f left) (back : Stands renders level g right) :
    Stands renders level (join f g) (left ++ Sign.spaced word ++ right) := by
  obtain ⟨signs, _, written, rfl, cut, readsFront, rfl, each⟩ := front
  obtain ⟨others, _, behind, rfl, cutBehind, readsBack, rfl, eachOther⟩ := back
  refine ⟨_, _, _, ?_, cut.joined named means cutBehind, reads readsFront readsBack, map _ _, ?_⟩
  · simp
  · intro operand spelled member
    simp only [List.mem_append, Sign.ofText, List.mem_map, reduceCtorEq, and_false, exists_false,
      or_false] at member
    exact member.elim (each operand spelled) (eachOther operand spelled)

theorem and (front : Stands renders .conjuncts f left) (back : Stands renders .conjuncts g right) :
    Stands renders .conjuncts (f.and g) (left ++ " and ".toList ++ right) :=
  joined "and".toList rfl rfl (fun _ _ => rfl) Formula.Reads.and front back

theorem or (front : Stands renders .alternatives f left)
    (back : Stands renders .alternatives g right) :
    Stands renders .alternatives (f.or g) (left ++ " or ".toList ++ right) :=
  joined "or".toList rfl rfl (fun _ _ => rfl) Formula.Reads.or front back

theorem conveys (stands : Stands renders level f text) : Conveys renders f text := by
  obtain ⟨signs, tokens, written, rfl, cut, reads, rfl, each⟩ := stands
  obtain ⟨read, understood, same⟩ := reads.ofSigns? cut
  refine .read understood ?_ (fun truth => ?_) each
  · rw [same.operands, Formula.operands_map]
  · rw [same.holds, Formula.holds_map]

end Stands

/-! Rendering. -/

/-- How tightly the text of a node of this kind holds together. -/
def tightness : Kind → Formula.Level
  | .and => .conjuncts
  | .or => .alternatives
  | _ => .tight

theorem tightness_of_ne {kind : Kind} (notAnd : kind ≠ .and) (notOr : kind ≠ .or) :
    tightness kind = .tight := by
  unfold tightness
  split <;> first | contradiction | rfl

theorem Stands.conjunct {kind : Kind} (stands : Stands renders (tightness kind) f text) :
    Stands renders .conjuncts f (conjunct (kind, text)) := by
  unfold Render.conjunct
  split
  · exact stands.bracketed.conjuncts
  · next notOr =>
    by_cases chain : kind = .and
    · rw [chain] at stands
      exact stands
    · rw [tightness_of_ne chain notOr] at stands
      exact stands.conjuncts

theorem Stands.negand {kind : Kind} (stands : Stands renders (tightness kind) f text) :
    Stands renders .tight f (negand (kind, text)) := by
  unfold Render.negand
  split
  · exact stands.bracketed
  · exact stands.bracketed
  · next notAnd notOr =>
    rw [tightness_of_ne notAnd notOr] at stands
    exact stands

variable {context : Context} {follow : Node → Render Text} {node : Node} {pass after : Pass}
  {notes : List Note}

/-- The node has this text when it is rendered by itself in the pass. -/
def RendersAs (context : Context) (follow : Node → Render Text) (pass : Pass) (node : Node)
    (text : Text) : Prop :=
  ∃ after, (node.plan context follow).text pass = .ok text after

theorem reference_settled (node : Node) (mode : Mode) :
    (∃ found, reference node mode = pure found) ∨ ∃ fault, reference node mode = throw fault := by
  unfold reference
  cases node.find? .expansionMod with
  | some modifier => exact .inr ⟨_, rfl⟩
  | none =>
    cases node.find? .identifier with
    | none => exact .inr ⟨_, rfl⟩
    | some name => exact .inl ⟨_, rfl⟩

/-- A test fails whatever the pass, or its text follows from the environment. -/
theorem test_settled (leaf : node.isTest = true) :
    (∃ fault, ∀ pass, (node.plan context follow).text pass = .error fault pass) ∨
      ∃ emit : Environment → Text, ∀ pass, ∃ notes,
        (node.plan context follow).text pass = .ok (emit pass.environment) { pass with notes } := by
  rw [Node.plan_text]
  unfold Node.isTest at leaf
  unfold Render.node
  split at leaf
  · next kind =>
    rw [kind]
    exact .inr ⟨fun _ => node.text, fun pass => ⟨_, rfl⟩⟩
  · next kind =>
    rw [kind]
    exact .inr ⟨fun _ => Zig.literal (unquote node.text), fun pass => ⟨_, rfl⟩⟩
  · next mode kind =>
    rw [kind]
    simp only [value, fragments, writtenFragments, kind]
    rcases reference_settled node mode with ⟨found, refers⟩ | ⟨fault, fails⟩
    · rw [refers]
      exact .inr ⟨fun environment => Fragment.expression environment
        (Fragment.substituteAll environment node.line [found]).value, fun pass => ⟨_, rfl⟩⟩
    · rw [fails]
      exact .inl ⟨fault, fun pass => rfl⟩
  · next kind =>
    rw [kind]
    simp only [isDefined]
    cases node.find? .identifier with
    | none => exact .inl ⟨_, fun pass => rfl⟩
    | some name => exact .inr ⟨fun _ => Zig.isSet name.text, fun pass => ⟨_, rfl⟩⟩
  · cases leaf

theorem renders_test (leaf : node.isTest = true)
    (run : (node.plan context follow).text { pass with notes } = .ok text after) :
    (∃ more, after = { pass with notes := more }) ∧ RendersAs context follow pass node text := by
  rcases test_settled leaf with ⟨fault, fails⟩ | ⟨emit, emits⟩
  · rw [fails] at run
    cases run
  · obtain ⟨more, emitted⟩ := emits { pass with notes }
    rw [emitted] at run
    cases run
    obtain ⟨own, rendered⟩ := emits pass
    exact ⟨⟨more, rfl⟩, _, rendered⟩

theorem bothOperands_ok {first second : Node} (write : Kind × Text → Kind × Text → Text)
    (firstChild : node.namedChild? 0 = some first) (secondChild : node.namedChild? 1 = some second)
    (run : (do
      let (left, right) ← bothOperands node (node.children.map (Node.plan context follow))
      return write left right : Render Text) pass = .ok text after) :
    ∃ left middle right, (first.plan context follow).text pass = .ok left middle ∧
      (second.plan context follow).text middle = .ok right after ∧
      text = write (first.kind, left) (second.kind, right) := by
  obtain ⟨operands, last, run, written⟩ := of_bind_ok run
  cases written
  unfold bothOperands at run
  simp only [namedParts_children, firstChild, secondChild, Option.map_some, require, pure_bind,
    Node.plan_node] at run
  obtain ⟨left, middle, runLeft, run⟩ := of_bind_ok run
  obtain ⟨right, last, runRight, run⟩ := of_bind_ok run
  cases run
  exact ⟨left, middle, right, runLeft, runRight, rfl⟩

theorem negation_ok {inner : Node} (child : node.namedChild? 0 = some inner)
    (run : negation node (node.children.map (Node.plan context follow)) pass = .ok text after) :
    ∃ operand, (inner.plan context follow).text pass = .ok operand after ∧
      text = '!' :: negand (inner.kind, operand) := by
  unfold negation at run
  simp only [namedParts_children, child, Option.map_some, require, pure_bind, Node.plan_node] at run
  obtain ⟨operand, middle, runInner, run⟩ := of_bind_ok run
  cases kind : inner.kind <;> rw [kind] at run <;> cases run <;> exact ⟨operand, runInner, rfl⟩

/-- A condition leaves everything but the notes as it is, so that each test has the text it would have
by itself in front of the condition. -/
theorem stands_of_condition (condition : node.Condition f)
    (run : (node.plan context follow).text { pass with notes } = .ok text after) :
    (∃ more, after = { pass with notes := more }) ∧
      Stands (RendersAs context follow pass) (tightness node.kind) f text := by
  induction condition generalizing notes text after with
  | @test node leaf =>
    obtain ⟨kept, rendered⟩ := renders_test leaf run
    have notAnd : node.kind ≠ .and := fun kind => by simp [Node.isTest, kind] at leaf
    have notOr : node.kind ≠ .or := fun kind => by simp [Node.isTest, kind] at leaf
    rw [tightness_of_ne notAnd notOr]
    exact ⟨kept, .operand (.test leaf rendered)⟩
  | @eq node left right _ _ kind first second leftCondition rightCondition ihLeft ihRight =>
    rw [Node.plan_text, Render.node, kind] at run
    obtain ⟨_, _, _, runLeft, runRight, rfl⟩ :=
      bothOperands_ok (fun left right => Zig.equal left.2 right.2) first second run
    obtain ⟨⟨_, rfl⟩, leftSide⟩ := ihLeft runLeft
    obtain ⟨kept, rightSide⟩ := ihRight runRight
    rw [kind]
    exact ⟨kept, .operand (.eq kind first second leftCondition rightCondition leftSide.conveys
      rightSide.conveys)⟩
  | @not node inner _ kind first condition ih =>
    rw [Node.plan_text, Render.node, kind] at run
    obtain ⟨operand, runInner, rfl⟩ := negation_ok first run
    obtain ⟨kept, stands⟩ := ih runInner
    rw [kind]
    exact ⟨kept, stands.negand.not⟩
  | @and node left right _ _ kind first second leftCondition rightCondition ihLeft ihRight =>
    rw [Node.plan_text, Render.node, kind] at run
    obtain ⟨_, _, _, runLeft, runRight, rfl⟩ :=
      bothOperands_ok (fun left right => conjunct left ++ " and ".toList ++ conjunct right)
        first second run
    obtain ⟨⟨_, rfl⟩, leftSide⟩ := ihLeft runLeft
    obtain ⟨kept, rightSide⟩ := ihRight runRight
    rw [kind]
    exact ⟨kept, leftSide.conjunct.and rightSide.conjunct⟩
  | @or node left right _ _ kind first second leftCondition rightCondition ihLeft ihRight =>
    rw [Node.plan_text, Render.node, kind] at run
    obtain ⟨_, _, _, runLeft, runRight, rfl⟩ :=
      bothOperands_ok (fun left right => left.2 ++ " or ".toList ++ right.2) first second run
    obtain ⟨⟨_, rfl⟩, leftSide⟩ := ihLeft runLeft
    obtain ⟨kept, rightSide⟩ := ihRight runRight
    rw [kind]
    exact ⟨kept, leftSide.alternatives.or rightSide.alternatives⟩

/-- A condition that can be rendered is read, in the program, as a formula of its own tests. -/
theorem condition_conveys (context : Context) (follow : Node → Render Text) (pass after : Pass)
    (node : Node) (formula : Formula Node) (text : Text) (condition : node.Condition formula)
    (run : (node.plan context follow).text pass = .ok text after) :
    Conveys (RendersAs context follow pass) formula text :=
  (stands_of_condition condition run).2.conveys

def nameTest : Node :=
  .leaf .identifier 1 "A".toList

def equalityTest : Node :=
  .branch .eq 1 [] [.branch .not 1 [] [.token 1 "!".toList, .branch .or 1 [] [nameTest, nameTest]],
    .token 1 "==".toList, .leaf .string 1 "\"s\"".toList]

/-- Every operator below every other one that makes a difference to it. -/
def nestedTest : Node :=
  .branch .and 1 [] [.branch .or 1 [] [nameTest, equalityTest], .token 1 "&&".toList,
    .branch .not 1 [] [.token 1 "!".toList, .branch .and 1 [] [nameTest, equalityTest]]]

def nestedFormula : Formula Node :=
  .and (.or (.operand nameTest) (.operand equalityTest))
    (.not (.and (.operand nameTest) (.operand equalityTest)))

def nestedText : Text :=
  ("(A or std.mem.eql(u8, !(A or A), \"s\")) and " ++
    "!(A and std.mem.eql(u8, !(A or A), \"s\"))").toList

def loneContext : Context :=
  { parse := Node.leaf .sourceFile 1, load := fun _ => .error .notFound }

theorem nestedTest_conveys :
    nestedTest.Condition nestedFormula ∧
      RendersAs loneContext (inclusion none loneContext) {} nestedTest nestedText ∧
      Conveys (RendersAs loneContext (inclusion none loneContext) {}) nestedFormula nestedText := by
  have equality : equalityTest.Condition (.operand equalityTest) :=
    .eq rfl rfl rfl (.not rfl rfl (.or rfl rfl rfl (.test rfl) (.test rfl))) (.test rfl)
  have condition : nestedTest.Condition nestedFormula :=
    .and rfl rfl rfl (.or rfl rfl rfl (.test rfl) equality)
      (.not rfl rfl (.and rfl rfl rfl (.test rfl) equality))
  exact ⟨condition, ⟨{}, rfl⟩, condition_conveys _ _ {} {} nestedTest _ _ condition rfl⟩

end Render

end BmakeZig
