import BmakeZig.Proofs.Text.Cuts
import BmakeZig.Tree.Node
import Mathlib.Data.List.Chain

/-! Where the nodes of a tree stand in the source. `Maps source offset node` gives `node` and all nodes
below it a start: each text is what the source has there, on the line the node names, and the
children follow one another inside their parent. In a list of statements nothing but blanks is left
between them, and the pieces of a phrase are all of its text.

Offsets play no part in the proofs. A node is `Sound` when it maps every source in which its text
stands on its line, and that follows from how its children are laid out in its own text. -/
namespace BmakeZig

/-- The text stands in the source at an offset, on a line counted from one. -/
def StandsAt (source : Text) (offset line : Nat) (text : Text) : Prop :=
  ∃ before after, source = before ++ text ++ after ∧ offset = before.length ∧
    line = 1 + before.count '\n'

/-- The source from one offset up to another. -/
def slice (source : Text) (start stop : Nat) : Text :=
  (source.take stop).drop start

/-- The nodes with their starts, in order between two offsets and without overlap. -/
def InOrder : Nat → Nat → List (Nat × Node) → Prop
  | low, high, [] => low ≤ high
  | low, high, (start, node) :: rest =>
    low ≤ start ∧ InOrder (start + node.text.length) high rest

/-- Nothing but blanks. Behind a conditional block the rest of its last line may be anything. -/
def IsGap (previous : Option Kind) (gap : Text) : Prop :=
  ∀ c ∈ if previous = some .conditional then gap.dropWhile (· != '\n') else gap,
    Text.isBlank c = true

/-- Only gaps stand before, between and behind the nodes. -/
def OnlyGaps (source : Text) : Nat → Nat → Option Kind → List (Nat × Node) → Prop
  | low, high, previous, [] => IsGap previous (slice source low high)
  | low, high, previous, (start, node) :: rest =>
    IsGap previous (slice source low start) ∧
      OnlyGaps source (start + node.text.length) high (some node.kind) rest

/-- No two neighbours are of the kind. -/
def Apart (kind : Kind) (nodes : List Node) : Prop :=
  nodes.IsChain fun left right => ¬(left.kind = kind ∧ right.kind = kind)

def Kind.listsStatements (kind : Kind) : Bool :=
  kind = .sourceFile || kind = .body

def Kind.isPhrase (kind : Kind) : Bool :=
  kind = .value || kind = .message || kind = .command || kind = .path

/-- The children are all of the node's text, with every literal run as long as it can be. -/
structure Spelled (node : Node) : Prop where
  whole : node.children.flatMap (·.text) = node.text
  filled : ∀ child ∈ node.children, child.kind = .literal → child.text ≠ []
  apart : Apart .literal node.children

inductive Maps (source : Text) : Nat → Node → Prop where
  | intro {offset : Nat} {node : Node} {starts : List Nat}
      (stands : StandsAt source offset node.line node.text)
      (children : List.Forall₂ (Maps source) starts node.children)
      (ordered : InOrder offset (offset + node.text.length) (starts.zip node.children))
      (statements : node.kind.listsStatements = true →
        OnlyGaps source offset (offset + node.text.length) none (starts.zip node.children) ∧
          Apart .error node.children)
      (phrase : node.kind.isPhrase = true → Spelled node) :
      Maps source offset node

namespace StandsAt

variable {source left right : Text} {offset line : Nat}

theorem front (stands : StandsAt source offset line (left ++ right)) :
    StandsAt source offset line left := by
  obtain ⟨before, after, whole, start, lines⟩ := stands
  exact ⟨before, right ++ after, by simp [whole], start, lines⟩

theorem back (stands : StandsAt source offset line (left ++ right)) :
    StandsAt source (offset + left.length) (line + left.count '\n') right := by
  obtain ⟨before, after, whole, start, lines⟩ := stands
  refine ⟨before ++ left, after, by simp [whole], by simp [start], ?_⟩
  rw [lines, List.count_append]
  omega

theorem slice_eq (stands : StandsAt source offset line left) :
    slice source offset (offset + left.length) = left := by
  obtain ⟨before, after, rfl, rfl, -⟩ := stands
  rw [slice, ← List.length_append, List.take_left, List.drop_left]

end StandsAt

/-! Laying out children. -/

/-- The node maps every source in which its text stands on its line. -/
def Sound (node : Node) : Prop :=
  ∀ source offset, StandsAt source offset node.line node.text → Maps source offset node

/-- The children stand in a text that starts on a line, in order and with anything between. -/
inductive Laid : Nat → Text → List Node → Prop where
  | done {line : Nat} {text : Text} : Laid line text []
  | next {line : Nat} {gap rest : Text} {child : Node} {children : List Node} (sound : Sound child)
      (own : child.line = line + gap.count '\n')
      (more : Laid (child.line + child.text.count '\n') rest children) :
      Laid line (gap ++ (child.text ++ rest)) (child :: children)

namespace Laid

variable {line : Nat} {text left right : Text} {child : Node} {children others : List Node}

theorem placed (laid : Laid line text children) {source : Text} {offset : Nat}
    (stands : StandsAt source offset line text) :
    ∃ starts, List.Forall₂ (Maps source) starts children ∧
      InOrder offset (offset + text.length) (starts.zip children) := by
  induction laid generalizing offset with
  | done => exact ⟨[], .nil, Nat.le_add_right _ _⟩
  | @next line gap rest child children sound own more ih =>
    have inside := stands.back
    have behind := inside.back
    rw [← own] at inside behind
    -- The child starts behind the gap, and the next one is looked for behind the child.
    obtain ⟨starts, maps, ordered⟩ := ih behind
    have size : offset + (gap ++ (child.text ++ rest)).length =
        offset + gap.length + child.text.length + rest.length := by
      simp only [List.length_append]
      omega
    rw [size]
    exact ⟨(offset + gap.length) :: starts, .cons (sound _ _ inside.front) maps,
      Nat.le_add_right _ _, ordered⟩

theorem behind (laid : Laid (line + left.count '\n') right children) :
    Laid line (left ++ right) children := by
  cases laid with
  | done => exact .done
  | @next _ gap rest child children sound own more =>
    rw [← List.append_assoc]
    refine .next sound ?_ more
    rw [own, List.count_append]
    omega

theorem append (first : Laid line left children)
    (second : Laid (line + left.count '\n') right others) :
    Laid line (left ++ right) (children ++ others) := by
  induction first with
  | done => exact second.behind
  | @next line gap rest child children sound own more ih =>
    rw [List.append_assoc, List.append_assoc, List.cons_append]
    refine .next sound own (ih ?_)
    simpa [own, Nat.add_assoc] using second

theorem extend (laid : Laid line left children) (right : Text) :
    Laid line (left ++ right) children := by
  simpa using laid.append (.done : Laid _ right [])

/-- A child whose text is empty stands anywhere on its line, so also at the end. -/
theorem concat_empty (laid : Laid line text children) (sound : Sound child) (empty : child.text = [])
    (own : child.line = line + text.count '\n') : Laid line text (children ++ [child]) := by
  have last : Laid (line + text.count '\n') ([] ++ (child.text ++ [])) [child] :=
    .next sound (by simpa using own) .done
  simpa [empty] using laid.append last

/-- One child, with nothing in front of it. -/
theorem alone (sound : Sound child) (rest : Text) : Laid child.line (child.text ++ rest) [child] := by
  have laid : Laid child.line ([] ++ (child.text ++ rest)) [child] := .next sound rfl .done
  exact laid

theorem init (laid : Laid line text (children ++ others)) : Laid line text children := by
  induction children generalizing line text with
  | nil => exact .done
  | cons child children ih =>
    cases laid with
    | next sound own more => exact .next sound own (ih more)

theorem ne_nil (laid : Laid line text (child :: children)) (filled : child.text ≠ []) :
    text ≠ [] := by
  cases laid with
  | next sound own more => simp [filled]

/-- Children that end in a character that is kept stay inside when blanks are cut off. -/
theorem trimEnd (laid : Laid line text children)
    (firm : ∀ child ∈ children, Text.Firm child.text) : Laid line (Text.trimEnd text) children := by
  induction laid with
  | done => exact .done
  | @next line gap rest child children sound own more ih =>
    have kept : Text.Firm (gap ++ child.text) := (firm child (by simp)).append_left gap
    rw [← List.append_assoc, kept.trimEnd_append, List.append_assoc]
    exact .next sound own (ih fun other member => firm other (List.mem_cons_of_mem _ member))

end Laid

/-! Nodes of one line. -/

theorem count_newline {text : Text} (single : '\n' ∉ text) : text.count '\n' = 0 :=
  List.count_eq_zero.2 single

/-- The next word of a line. -/
theorem Laid.word {line : Nat} {gap rest : Text} {child : Node} {children : List Node}
    (sound : Sound child) (own : child.line = line) (single : '\n' ∉ gap ++ child.text)
    (more : Laid line rest children) :
    Laid line (gap ++ (child.text ++ rest)) (child :: children) := by
  rw [List.mem_append, not_or] at single
  refine .next sound ?_ ?_
  · rw [own, count_newline single.1, Nat.add_zero]
  · rwa [own, count_newline single.2, Nat.add_zero]

/-- A word with nothing in front of it. -/
theorem Laid.first {line : Nat} {rest : Text} {child : Node} {children : List Node}
    (sound : Sound child) (own : child.line = line) (single : '\n' ∉ child.text)
    (more : Laid line rest children) : Laid line (child.text ++ rest) (child :: children) := by
  have laid : Laid line ([] ++ (child.text ++ rest)) (child :: children) :=
    .word sound own single more
  exact laid

/-- The last word of a line. -/
theorem Laid.last {line : Nat} {gap : Text} {child : Node} (sound : Sound child)
    (own : child.line = line) (single : '\n' ∉ gap ++ child.text) :
    Laid line (gap ++ child.text) [child] := by
  have laid : Laid line (gap ++ (child.text ++ [])) [child] := .word sound own single .done
  rwa [List.append_nil] at laid

theorem Laid.indent {line : Nat} {gap text : Text} {children : List Node}
    (laid : Laid line text children) (single : '\n' ∉ gap) : Laid line (gap ++ text) children := by
  refine Laid.behind ?_
  rwa [count_newline single, Nat.add_zero]

/-- A line cut off behind its last word, which may be empty. -/
theorem Laid.trimLine {line : Nat} {text : Text} {last : Node} {children : List Node}
    (laid : Laid line text (children ++ [last])) (single : '\n' ∉ text)
    (firm : ∀ child ∈ children, Text.Firm child.text) (sound : Sound last) (own : last.line = line)
    (ending : last.text = [] ∨ Text.Firm last.text) :
    Laid line (Text.trimEnd text) (children ++ [last]) := by
  rcases ending with empty | filled
  · -- An empty word holds no blanks in front of it, so it moves to where the line is cut.
    refine (laid.init.trimEnd firm).concat_empty sound empty ?_
    rw [count_newline fun member => single (Text.mem_of_mem_trimEnd member), own, Nat.add_zero]
  · refine laid.trimEnd fun child member => ?_
    rcases List.mem_append.1 member with before | same
    · exact firm child before
    · rwa [List.mem_singleton.1 same]

/-- Kinds whose nodes are only asked to be where their text is. -/
def Kind.isPlain (kind : Kind) : Bool :=
  !kind.listsStatements && !kind.isPhrase

theorem sound_branch {kind : Kind} {line : Nat} {text : Text} {children : List Node}
    (plain : kind.isPlain = true) (laid : Laid line text children) :
    Sound (.branch kind line text children) := by
  intro source offset stands
  obtain ⟨starts, maps, ordered⟩ := laid.placed stands
  simp only [Kind.isPlain, Bool.and_eq_true, Bool.not_eq_true'] at plain
  refine .intro stands maps ordered (fun lists => ?_) (fun phrase => ?_)
  · exact absurd lists (by simp [Node.branch, plain.1])
  · exact absurd phrase (by simp [Node.branch, plain.2])

theorem sound_leaf {kind : Kind} (plain : kind.isPlain = true) (line : Nat) (text : Text) :
    Sound (.leaf kind line text) :=
  sound_branch plain .done

theorem sound_token (line : Nat) (text : Text) : Sound (.token line text) := by
  intro source offset stands
  exact .intro stands .nil (Nat.le_add_right _ _)
    (fun lists => absurd lists (by simp [Node.token, Kind.listsStatements]))
    (fun phrase => absurd phrase (by simp [Node.token, Kind.isPhrase]))

end BmakeZig
