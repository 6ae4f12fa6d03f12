import BmakeZig.Proofs.Text.Cuts
import BmakeZig.Source.Condition

/-! The grammar of conditions. `Sentence` relates the spelling of a condition at a level of precedence
to its tree, with any spaces between its words. -/
namespace BmakeZig.Source

/-- From the loosest to the tightest. -/
inductive Level where
  | or
  | and
  | eq
  | not
  | primary

def Level.rank : Level → Nat
  | .or => 0
  | .and => 1
  | .eq => 2
  | .not => 3
  | .primary => 4

/-- Spaces between two words of a line. -/
def Gap (text : Text) : Prop :=
  ∀ c ∈ text, Text.isSpace c = true

/-- Names with commas between them, up to the bracket that closes the list. -/
inductive Listing (line : Nat) : Text → List Node → Prop where
  | last {name gap : Text} (named : Text.isName name = true) (spaces : Gap gap) :
      Listing line (name ++ gap) [.leaf .identifier line name]
  | more {name before after text : Text} {nodes : List Node} (named : Text.isName name = true)
      (spaces : Gap before) (spacesAfter : Gap after) (rest : Listing line text nodes) :
      Listing line (name ++ before ++ ',' :: after ++ text)
        (.leaf .identifier line name :: .token line [','] :: nodes)

/-- What stands between the brackets of an expansion, without the spaces in front. -/
inductive Content (line : Nat) : Mode → Text → List Node → Prop where
  | name {mode : Mode} {name gap : Text} (named : Text.isName name = true) (spaces : Gap gap) :
      Content line mode (name ++ gap) [.leaf .identifier line name]
  | modified {modifier gap text : Text} {nodes : List Node} (named : Text.isName modifier = true)
      (spaces : Gap gap) (filled : gap ≠ []) (listed : Listing line text nodes) :
      Content line .immediate ('@' :: modifier ++ gap ++ text)
        (.leaf .expansionMod line ('@' :: modifier) :: nodes)

/-- The spelling of an expansion around its content. -/
def expansionText (mode : Mode) (gap content : Text) : Text :=
  '$' :: mode.opening :: gap ++ content ++ [mode.closing]

def expansionNode (line : Nat) (mode : Mode) (text : Text) (nodes : List Node) : Node :=
  .branch (.expansion mode) line text
    (.token line ['$', mode.opening] :: nodes ++ [.token line [mode.closing]])

/-- The spelling of two operands around an operator. -/
def joinedText (left before operator after right : Text) : Text :=
  left ++ before ++ operator ++ after ++ right

def joinedNode (kind : Kind) (line : Nat) (text operator : Text) (left right : Node) : Node :=
  .branch kind line text [left, .token line operator, right]

inductive Sentence (line : Nat) : Level → Text → Node → Prop where
  | name {word : Text} (named : Text.isName word = true) :
      Sentence line .primary word (.leaf .identifier line word)
  | string {inside : Text} (plain : '"' ∉ inside) (single : '\n' ∉ inside) :
      Sentence line .primary ('"' :: inside ++ ['"']) (.leaf .string line ('"' :: inside ++ ['"']))
  | expansion {mode : Mode} {gap text : Text} {nodes : List Node} (spaces : Gap gap)
      (content : Content line mode text nodes) :
      Sentence line .primary (expansionText mode gap text)
        (expansionNode line mode (expansionText mode gap text) nodes)
  | defined {before inside target after : Text} (spaces : Gap before ∧ Gap inside ∧ Gap after)
      (named : Text.isName target = true) :
      Sentence line .primary
        ("defined".toList ++ before ++ '(' :: inside ++ target ++ after ++ [')'])
        (.branch .isDefined line
          ("defined".toList ++ before ++ '(' :: inside ++ target ++ after ++ [')'])
          [.token line "defined".toList, .token line ['('], .leaf .identifier line target,
            .token line [')']])
  | bracketed {before text after : Text} {node : Node} (spaces : Gap before ∧ Gap after)
      (inner : Sentence line .or text node) :
      Sentence line .primary ('(' :: before ++ text ++ after ++ [')']) node
  | ofPrimary {text : Text} {node : Node} (inner : Sentence line .primary text node) :
      Sentence line .not text node
  | negated {gap text : Text} {node : Node} (spaces : Gap gap)
      (inner : Sentence line .not text node) :
      Sentence line .not ('!' :: gap ++ text)
        (.branch .not line ('!' :: gap ++ text) [.token line ['!'], node])
  | ofNot {text : Text} {node : Node} (inner : Sentence line .not text node) :
      Sentence line .eq text node
  | equal {leftText before after rightText : Text} {left right : Node}
      (spaces : Gap before ∧ Gap after) (first : Sentence line .not leftText left)
      (second : Sentence line .not rightText right) :
      Sentence line .eq (joinedText leftText before ['=', '='] after rightText)
        (joinedNode .eq line (joinedText leftText before ['=', '='] after rightText) ['=', '=']
          left right)
  | ofEq {text : Text} {node : Node} (inner : Sentence line .eq text node) :
      Sentence line .and text node
  | both {leftText before after rightText : Text} {left right : Node}
      (spaces : Gap before ∧ Gap after) (first : Sentence line .and leftText left)
      (second : Sentence line .eq rightText right) :
      Sentence line .and (joinedText leftText before ['&', '&'] after rightText)
        (joinedNode .and line (joinedText leftText before ['&', '&'] after rightText) ['&', '&']
          left right)
  | ofAnd {text : Text} {node : Node} (inner : Sentence line .and text node) :
      Sentence line .or text node
  | either {leftText before after rightText : Text} {left right : Node}
      (spaces : Gap before ∧ Gap after) (first : Sentence line .or leftText left)
      (second : Sentence line .and rightText right) :
      Sentence line .or (joinedText leftText before ['|', '|'] after rightText)
        (joinedNode .or line (joinedText leftText before ['|', '|'] after rightText) ['|', '|']
          left right)

/-- A tighter sentence is also one of every looser level. -/
theorem Sentence.loosen {line : Nat} {tight loose : Level} {text : Text} {node : Node}
    (looser : loose.rank ≤ tight.rank) (sentence : Sentence line tight text node) :
    Sentence line loose text node := by
  have step (own : Level) (inner : Sentence line own text node) :
      ∀ steps, own.rank = loose.rank + steps → Sentence line loose text node := by
    intro steps
    induction steps generalizing own with
    | zero =>
      intro same
      cases own <;> cases loose <;> simp_all [Level.rank]
    | succ steps ih =>
      intro same
      cases own with
      | or => simp [Level.rank] at same
      | and => exact ih .or (.ofAnd inner) (by simp only [Level.rank] at same ⊢; omega)
      | eq => exact ih .and (.ofEq inner) (by simp only [Level.rank] at same ⊢; omega)
      | not => exact ih .eq (.ofNot inner) (by simp only [Level.rank] at same ⊢; omega)
      | primary => exact ih .not (.ofPrimary inner) (by simp only [Level.rank] at same ⊢; omega)
  exact step tight sentence (tight.rank - loose.rank) (by omega)

/-! Spellings start and end in characters that are kept. -/

/-- A text that spaces in front and blanks behind can be told from. -/
structure Solid (text : Text) : Prop where
  filled : text ≠ []
  start : ∀ c ∈ text.head?, Text.isSpace c = false
  stop : ∀ c ∈ text.getLast?, Text.isBlank c = false

namespace Solid

variable {text left right : Text}

theorem skip (solid : Solid text) (rest : Text) : Text.skipSpaces (text ++ rest) = text ++ rest := by
  obtain ⟨c, text, rfl⟩ := List.exists_cons_of_ne_nil solid.filled
  have first := solid.start c rfl
  simp [Text.skipSpaces, first]

theorem trim (solid : Solid text) {gap : Text} (spaces : Gap gap) :
    Text.trimEnd (text ++ gap) = text := by
  rw [Text.trimEnd_append_blanks fun c member => Text.isBlank_of_isSpace (spaces c member)]
  have last := solid.stop _ (List.getLast_mem_getLast? solid.filled)
  conv_lhs => rw [← List.dropLast_append_getLast solid.filled]
  rw [Text.trimEnd_concat last, List.dropLast_append_getLast]

/-- The first and the last part decide. -/
theorem append (first : Solid left) (second : Solid right) (middle : Text) :
    Solid (left ++ middle ++ right) where
  filled := by simp [first.filled]
  start := by
    rw [List.append_assoc, List.head?_append_of_ne_nil _ first.filled]
    exact first.start
  stop := by
    rw [List.getLast?_append_of_ne_nil _ second.filled]
    exact second.stop

theorem joined (first : Solid left) (second : Solid right) (before operator after : Text) :
    Solid (joinedText left before operator after right) := by
  simpa [joinedText] using first.append second (before ++ operator ++ after)

theorem singleton {c : Char} (solid : Text.isBlank c = false) : Solid [c] where
  filled := by simp
  start := by
    intro d same
    obtain rfl := Option.some.inj same
    by_contra space
    rw [Bool.not_eq_false] at space
    simp [Text.isBlank_of_isSpace space] at solid
  stop := by
    intro d same
    obtain rfl := Option.some.inj same
    exact solid

theorem enclosed {opening closing : Char} (front : Text.isBlank opening = false)
    (back : Text.isBlank closing = false) (middle : Text) :
    Solid (opening :: middle ++ [closing]) :=
  (singleton front).append (singleton back) middle

theorem ofName (named : Text.isName text = true) : Solid text := by
  have solid : ∀ c ∈ text, Text.isBlank c = false :=
    fun c member => Text.isBlank_of_isNameChar (Text.isNameChar_of_mem named member)
  refine ⟨?_, fun c first => ?_, fun c last => solid c (List.mem_of_mem_getLast? last)⟩
  · rintro rfl
    simp [Text.isName] at named
  · exact (singleton (solid c (List.mem_of_mem_head? first))).start c rfl

end Solid

theorem Sentence.solid {line : Nat} {level : Level} {text : Text} {node : Node}
    (sentence : Sentence line level text node) : Solid text := by
  induction sentence with
  | name named => exact .ofName named
  | string => exact .enclosed (by decide) (by decide) _
  | @expansion mode gap text nodes =>
    have closing : Text.isBlank mode.closing = false := by cases mode <;> decide
    simpa [expansionText] using Solid.enclosed (by decide) closing (mode.opening :: gap ++ text)
  | @defined before inside target after =>
    have word : Solid "defined".toList := .ofName (by decide)
    simpa using word.append (.singleton (by decide)) (before ++ '(' :: inside ++ target ++ after)
  | @bracketed before text after =>
    simpa using Solid.enclosed (by decide) (by decide) (before ++ text ++ after)
  | negated spaces inner ih => exact .append (.singleton (by decide)) ih _
  | equal spaces first second left right | both spaces first second left right
  | either spaces first second left right =>
    exact left.joined right _ _ _
  | ofPrimary inner ih | ofNot inner ih | ofEq inner ih | ofAnd inner ih => exact ih

end BmakeZig.Source
