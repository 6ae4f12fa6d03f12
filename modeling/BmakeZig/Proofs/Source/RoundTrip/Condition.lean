import BmakeZig.Proofs.Source.Condition
import BmakeZig.Proofs.Source.Outline
import BmakeZig.Proofs.Source.Words

/-! Printed conditions are sentences of the grammar, with brackets where an operand binds looser than
its place asks for, and their trees are taken for the same conditions. -/
namespace BmakeZig.Outline

open Source (Gap Sentence Level Listing newline_not_mem_name)

theorem check?_val {α : Type} {p : α → Prop} [DecidablePred p] (value : Subtype p) :
    check? p value.1 = some value :=
  dif_pos value.2

/-! Conditions. -/

theorem names?_token {line : Nat} {text : Text} (rest : List Node) :
    Condition.names? (.token line text :: rest) = Condition.names? rest := by
  simp [Condition.names?, Node.token]

theorem names?_identifier {line : Nat} (name : Name) (rest : List Node) :
    Condition.names? (.leaf .identifier line name.1 :: rest) =
      (Condition.names? rest).map (name :: ·) := by
  simp only [Condition.names?, Node.leaf, if_true, check?_val]
  cases Condition.names? rest <;> rfl

theorem listing_names (line : Nat) (first : Name) (others : List Name) :
    ∃ nodes, Listing line (first.1 ++ Condition.nameList others) nodes ∧
      ∀ closing, Condition.names? (nodes ++ [.token line closing]) = some (first :: others) := by
  induction others generalizing first with
  | nil =>
    refine ⟨_, .last first.2 (by simp [Gap, Condition.nameList]), fun closing => ?_⟩
    rw [List.singleton_append, names?_identifier, names?_token]
    rfl
  | cons next others ih =>
    obtain ⟨nodes, listed, named⟩ := ih next
    have shape : first.1 ++ Condition.nameList (next :: others) =
        first.1 ++ [] ++ ',' :: [' '] ++ (next.1 ++ Condition.nameList others) := by
      simp [Condition.nameList]
    rw [shape]
    refine ⟨_, .more first.2 (by simp [Gap]) (by simp [Gap, Text.isSpace]) listed, fun closing => ?_⟩
    rw [List.cons_append, List.cons_append, names?_identifier, names?_token, named]
    rfl

/-- An operand, in brackets where it needs them, is a sentence of the level its place asks for. -/
theorem sentence_enclose {line : Nat} {own : Level} {text : Text} {node : Node} (needed : Level)
    (sentence : Sentence line own text node) :
    Sentence line needed (Condition.enclose needed own text) node := by
  unfold Condition.enclose
  split
  · next tight => exact sentence.loosen tight
  · have inside : Sentence line .or text node := sentence.loosen (by simp [Level.rank])
    have bracketed : Sentence line .primary ('(' :: [] ++ text ++ [] ++ [')']) node :=
      .bracketed ⟨by simp [Gap], by simp [Gap]⟩ inside
    refine Sentence.loosen ?_ (by simpa using bracketed)
    cases needed <;> simp [Level.rank]

theorem gap_blank : Gap [' '] := by
  simp [Gap, Text.isSpace]

theorem gap_none : Gap [] := by
  simp [Gap]

theorem defined_print (target : Name) : (Condition.defined target).print =
    "defined".toList ++ [] ++ '(' :: [] ++ target.1 ++ [] ++ [')'] := by
  rw [Condition.print, List.append_nil, List.append_nil]
  rfl

/-- A condition is printed as a sentence of its level, and its tree stands for it. -/
theorem condition_printed (line : Nat) (condition : Condition) :
    ∃ node, Sentence line condition.level condition.print node ∧
      Condition.ofNode? node = some condition := by
  induction condition with
  | name word =>
    have sentence : Sentence line .primary _ _ := .name word.2
    refine ⟨_, by simpa [Condition.level, Condition.print] using sentence, ?_⟩
    simp [Condition.ofNode?, Node.leaf, check?_val]
  | string inside =>
    have sentence : Sentence line .primary _ _ := .string inside.2.1 inside.2.2
    refine ⟨_, by simpa [Condition.level, Condition.print] using sentence, ?_⟩
    simp [Condition.ofNode?, Node.leaf, check?_val]
  | expansion mode target =>
    have named : Source.Content line mode _ _ := .name target.2 gap_none
    have sentence := Sentence.expansion gap_none named
    refine ⟨_, by simpa [Condition.level, Condition.print, Source.expansionText] using sentence, ?_⟩
    simp [Condition.ofNode?, Source.expansionNode, Node.branch, Node.leaf, Node.token, check?_val]
  | modified modifier first others =>
    obtain ⟨nodes, listed, named⟩ := listing_names line first others
    have sentence := Sentence.expansion gap_none
      (.modified modifier.2 gap_blank (by simp) listed)
    refine ⟨_, by simpa [Condition.level, Condition.print, Source.expansionText, Mode.opening,
      Mode.closing] using sentence, ?_⟩
    simp [Condition.ofNode?, Source.expansionNode, Node.branch, Node.leaf, check?_val, named]
  | defined target =>
    have sentence : Sentence line .primary _ _ :=
      .defined ⟨gap_none, gap_none, gap_none⟩ target.2
    rw [defined_print]
    refine ⟨_, sentence, ?_⟩
    simp [Condition.ofNode?, Node.branch, Node.leaf, Node.token, check?_val]
  | not inner ih =>
    obtain ⟨node, sentence, read⟩ := ih
    have negated := Sentence.negated gap_none (sentence_enclose .not sentence)
    refine ⟨_, by simpa [Condition.level, Condition.print] using negated, ?_⟩
    simp [Condition.ofNode?, Node.branch, read]
  | eq left right ihLeft ihRight =>
    obtain ⟨leftNode, leftSentence, leftRead⟩ := ihLeft
    obtain ⟨rightNode, rightSentence, rightRead⟩ := ihRight
    have sentence := Sentence.equal ⟨gap_blank, gap_blank⟩ (sentence_enclose .not leftSentence)
      (sentence_enclose .not rightSentence)
    refine ⟨_, by simpa [Condition.level, Condition.print, Condition.between,
      Source.joinedText] using sentence, ?_⟩
    simp [Condition.ofNode?, Source.joinedNode, Node.branch, leftRead, rightRead]
  | and left right ihLeft ihRight =>
    obtain ⟨leftNode, leftSentence, leftRead⟩ := ihLeft
    obtain ⟨rightNode, rightSentence, rightRead⟩ := ihRight
    have sentence := Sentence.both ⟨gap_blank, gap_blank⟩ (sentence_enclose .and leftSentence)
      (sentence_enclose .eq rightSentence)
    refine ⟨_, by simpa [Condition.level, Condition.print, Condition.between,
      Source.joinedText] using sentence, ?_⟩
    simp [Condition.ofNode?, Source.joinedNode, Node.branch, leftRead, rightRead]
  | or left right ihLeft ihRight =>
    obtain ⟨leftNode, leftSentence, leftRead⟩ := ihLeft
    obtain ⟨rightNode, rightSentence, rightRead⟩ := ihRight
    have sentence := Sentence.either ⟨gap_blank, gap_blank⟩ (sentence_enclose .or leftSentence)
      (sentence_enclose .and rightSentence)
    refine ⟨_, by simpa [Condition.level, Condition.print, Condition.between,
      Source.joinedText] using sentence, ?_⟩
    simp [Condition.ofNode?, Source.joinedNode, Node.branch, leftRead, rightRead]

theorem newline_not_mem_nameList (names : List Name) : '\n' ∉ Condition.nameList names := by
  simp only [Condition.nameList, List.mem_flatMap, not_exists, not_and]
  intro name _ member
  rcases List.mem_append.1 member with comma | inside
  · simp at comma
  · exact newline_not_mem_name name.2 inside

theorem newline_not_mem_enclose {own needed : Level} {text : Text} (single : '\n' ∉ text) :
    '\n' ∉ Condition.enclose needed own text := by
  unfold Condition.enclose
  split
  · exact single
  · simpa using single

theorem newline_not_mem_condition (condition : Condition) : '\n' ∉ condition.print := by
  induction condition with
  | name word => exact newline_not_mem_name word.2
  | string inside => simpa [Condition.print] using inside.2.2
  | expansion mode target =>
    have opening : '\n' ≠ mode.opening := by cases mode <;> decide
    have closing : '\n' ≠ mode.closing := by cases mode <;> decide
    simp [Condition.print, newline_not_mem_name target.2, opening, closing]
  | modified modifier first others =>
    simp [Condition.print, newline_not_mem_name modifier.2, newline_not_mem_name first.2,
      newline_not_mem_nameList others]
  | defined target =>
    rw [defined_print]
    simp [newline_not_mem_name target.2]
  | not inner ih => simpa [Condition.print] using newline_not_mem_enclose ih
  | eq left right ihLeft ihRight | and left right ihLeft ihRight | or left right ihLeft ihRight =>
    simp [Condition.print, Condition.between, newline_not_mem_enclose ihLeft,
      newline_not_mem_enclose ihRight]

end BmakeZig.Outline
