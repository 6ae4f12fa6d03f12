import BmakeZig.Proofs.Source.Placement.Phrase

/-! Where the nodes of a condition stand. A reader that takes another reader as its operand leaves its
nodes in place as long as that one does. -/
namespace BmakeZig.Source

variable {line : Nat} {text left : Text} {node : Node} {nodes : List Node}

/-- The node stands in what was read of the text, and ends in a character that is kept. -/
structure Covers (line : Nat) (text : Text) (node : Node) (left : Text) : Prop where
  sound : Sound node
  own : node.line = line
  firm : Text.Firm node.text
  span : ∃ front back, text = front ++ (node.text ++ (back ++ left))

theorem Covers.behind (covers : Covers line text node left) (gap : Text) :
    Covers line (gap ++ text) node left := by
  obtain ⟨front, back, whole⟩ := covers.span
  exact ⟨covers.sound, covers.own, covers.firm, gap ++ front, back, by simp [whole]⟩

theorem Covers.leave (gap : Text) (covers : Covers line text node (gap ++ left)) :
    Covers line text node left := by
  obtain ⟨front, back, whole⟩ := covers.span
  exact ⟨covers.sound, covers.own, covers.firm, front, back ++ gap, by simp [whole]⟩

theorem Covers.skipFront (covers : Covers line (Text.skipSpaces text) node left) :
    Covers line text node left := by
  obtain ⟨gap, whole⟩ := skipSpaces_split text
  rw [whole]
  exact covers.behind gap

theorem Covers.skipBack (covers : Covers line text node left) :
    Covers line text node (Text.skipSpaces left) := by
  obtain ⟨gap, whole⟩ := skipSpaces_split left
  rw [whole] at covers
  exact covers.leave gap

/-- A node around its children, cut off behind the last of them. -/
theorem covers_branch {kind : Kind} {used : Text} {first : Node} (plain : kind.isPlain = true)
    (laid : Laid line used (first :: nodes)) (firm : ∀ child ∈ first :: nodes, Text.Firm child.text)
    (whole : text = used ++ left) :
    Covers line text
      (.branch kind line (Text.trimEnd (Text.consumed text left)) (first :: nodes)) left := by
  rw [whole, Text.consumed_append]
  obtain ⟨blanks, split, -, kept⟩ := Text.trimEnd_split used
  have trimmed := laid.trimEnd firm
  refine ⟨sound_branch plain trimmed, rfl, ?_, [], blanks, ?_⟩
  · exact kept.resolve_left (trimmed.ne_nil (firm first (by simp)).ne_nil)
  · conv_lhs => rw [split]
    simp [Node.branch]

theorem covers_joined {kind : Kind} {operator rest behind after : Text} {right : Node}
    (plain : kind.isPlain = true) (solid : Text.Firm operator) (single : '\n' ∉ text)
    (first : Covers line text node rest) (next : Text.skipSpaces rest = operator ++ behind)
    (second : Covers line behind right after) :
    Covers line text (.branch kind line (Text.trimEnd (Text.consumed text after))
      [node, .token line operator, right]) after := by
  obtain ⟨front, back, whole⟩ := first.span
  obtain ⟨gap, spaces⟩ := skipSpaces_split rest
  obtain ⟨front', back', inside⟩ := second.span
  have shape : text = (front ++ (node.text ++ ((back ++ gap) ++ (operator ++
      (front' ++ (right.text ++ back')))))) ++ after := by
    rw [whole, spaces, next, inside]
    simp
  rw [shape] at single
  simp only [List.mem_append, not_or] at single
  refine covers_branch plain ?_ ?_ shape
  · refine .word first.sound first.own (by simp [single]) ?_
    refine .word (sound_token line operator) rfl (by simp [single, Node.token]) ?_
    exact .word second.sound second.own (by simp [single]) .done
  · intro child member
    simp only [List.mem_cons, List.not_mem_nil, or_false] at member
    rcases member with rfl | rfl | rfl
    · exact first.firm
    · exact solid
    · exact second.firm

/-- Whatever the reader accepts on one line is in its place. -/
def ReadsPlaced (line : Nat) (reader : Reader) : Prop :=
  ∀ {text left : Text} {node : Node}, '\n' ∉ text → reader text = some (node, left) →
    Covers line text node left

theorem Covers.single {c : Char} (covers : Covers line text node left) (absent : c ∉ text) :
    c ∉ left := by
  obtain ⟨front, back, whole⟩ := covers.span
  rw [whole] at absent
  simp only [List.mem_append, not_or] at absent
  exact absent.2.2.2

theorem operands_placed {kind : Kind} {operator rest : Text} {operand : Reader} {limit : Nat}
    {first : Node} (plain : kind.isPlain = true) (solid : Text.Firm operator)
    (reads : ReadsPlaced line operand) (single : '\n' ∉ text) (covers : Covers line text first rest)
    (read : operands line kind operator operand text limit first rest = some (node, left)) :
    Covers line text node left := by
  induction limit generalizing first rest with
  | zero =>
    obtain ⟨rfl, rfl⟩ := Prod.mk.inj (Option.some.inj read)
    exact covers
  | succ limit ih =>
    simp only [operands] at read
    split at read
    · obtain ⟨rfl, rfl⟩ := Prod.mk.inj (Option.some.inj read)
      exact covers.skipBack
    · next behind found =>
      have next := Text.eq_append_of_after? found
      have later : '\n' ∉ behind := fun member =>
        not_mem_skipSpaces (covers.single single) (by simp [next, member])
      split at read
      · simp at read
      · next right after second =>
        exact ih (covers_joined plain solid single covers next (reads later second)) read

theorem joined_placed {kind : Kind} {operator : Text} {operand : Reader}
    (plain : kind.isPlain = true) (solid : Text.Firm operator) (reads : ReadsPlaced line operand) :
    ReadsPlaced line (joined line kind operator operand) := by
  intro text left node single read
  simp only [joined] at read
  split at read
  · simp at read
  · next first after found =>
    have later := not_mem_skipSpaces single
    exact (operands_placed plain solid reads later (reads later found) read).skipFront

theorem comparison_placed {operand : Reader} (reads : ReadsPlaced line operand) :
    ReadsPlaced line (comparison line operand) := by
  intro text left node single read
  simp only [comparison] at read
  split at read
  · simp at read
  · next first after found =>
    have later := not_mem_skipSpaces single
    have covers := reads later found
    split at read
    · obtain ⟨rfl, rfl⟩ := Prod.mk.inj (Option.some.inj read)
      exact covers.skipBack.skipFront
    · next behind marked =>
      have next := Text.eq_append_of_after? marked
      have last : '\n' ∉ behind := fun member =>
        not_mem_skipSpaces (covers.single later) (by simp [next, member])
      obtain ⟨right, second, same⟩ := Option.map_eq_some_iff.1 read
      obtain ⟨rfl, rfl⟩ := Prod.mk.inj same
      exact (covers_joined rfl ⟨['='], '=', rfl, by decide⟩ later covers next
        (reads last second)).skipFront

theorem negation_placed {operand : Reader} (reads : ReadsPlaced line operand) :
    ReadsPlaced line (negation line operand) := by
  intro text left node single read
  fun_induction negation line operand text generalizing node left with
  | case1 text behind next _ ih =>
    obtain ⟨⟨inner, after⟩, found, same⟩ := Option.map_eq_some_iff.1 read
    obtain ⟨rfl, rfl⟩ := Prod.mk.inj same
    have later : '\n' ∉ behind := fun member =>
      not_mem_skipSpaces single (by simp [next, member])
    have covers := ih later found
    obtain ⟨front, back, whole⟩ := covers.span
    have shape : '!' :: behind = ['!'] ++ (front ++ (inner.text ++ back)) ++ after := by simp [whole]
    rw [whole] at later
    simp only [List.mem_append, not_or] at later
    refine Covers.skipFront ?_
    rw [next]
    refine covers_branch rfl ?_ ?_ shape
    · refine .first (sound_token line ['!']) rfl (by simp [Node.token]) ?_
      exact .word covers.sound covers.own (by simp [later]) .done
    · intro child member
      simp only [List.mem_cons, List.not_mem_nil, or_false] at member
      rcases member with rfl | rfl
      · exact ⟨[], '!', rfl, by decide⟩
      · exact covers.firm
  | case2 text => exact (reads (not_mem_skipSpaces single) read).skipFront

theorem defined_placed {name after inside target rest : Text} (single : '\n' ∉ text)
    (whole : text = name ++ after) (opened : Text.skipSpaces after = '(' :: inside)
    (inner : Text.name? (Text.skipSpaces inside) = some (target, rest))
    (closed : Text.skipSpaces rest = ')' :: left) :
    Covers line text (.branch .isDefined line (Text.consumed text left)
      [.token line name, .token line ['('], .leaf .identifier line target, .token line [')']])
      left := by
  obtain ⟨first, behindName⟩ := skipSpaces_split after
  obtain ⟨second, behindOpening⟩ := skipSpaces_split inside
  obtain ⟨third, behindTarget⟩ := skipSpaces_split rest
  have shape : text = (name ++ (first ++ (['('] ++ (second ++ (target ++ (third ++ [')'])))))) ++
      left := by
    rw [whole, behindName, opened, behindOpening, Text.name?_eq_append inner, behindTarget, closed]
    simp
  rw [shape] at single ⊢
  rw [Text.consumed_append]
  simp only [List.mem_append, not_or] at single
  refine ⟨sound_branch rfl ?_, rfl, ?_, [], [], rfl⟩
  · refine .first (sound_token line name) rfl (by simp [single, Node.token]) ?_
    refine .word (sound_token line ['(']) rfl (by simp [single, Node.token]) ?_
    refine .word (sound_identifier line target) rfl (by simp [single, Node.leaf]) ?_
    exact .last (sound_token line [')']) rfl (by simp [single, Node.token])
  · exact ⟨name ++ (first ++ (['('] ++ (second ++ (target ++ third)))), ')', by simp [Node.branch],
      by decide⟩

theorem covers_name (line : Nat) {name : Text} (found : Text.name? text = some (name, left)) :
    Covers line text (.leaf .identifier line name) left := by
  have whole := Text.name?_eq_append found
  exact ⟨sound_identifier line name, rfl, firm_name (Text.isName_of_name? found), [], [], whole⟩

theorem nameOrDefined_placed : ReadsPlaced line (nameOrDefined line) := by
  intro text left node single read
  simp only [nameOrDefined] at read
  split at read
  · simp at read
  · next name after found =>
    have plain := covers_name line found
    split at read
    · split at read
      · next inside opened =>
        split at read
        · simp at read
        · next target rest inner =>
          split at read
          · next last closed =>
            obtain ⟨rfl, rfl⟩ := Prod.mk.inj (Option.some.inj read)
            exact defined_placed single (Text.name?_eq_append found) opened inner closed
          · simp at read
      · obtain ⟨rfl, rfl⟩ := Prod.mk.inj (Option.some.inj read)
        exact plain.skipBack
    · obtain ⟨rfl, rfl⟩ := Prod.mk.inj (Option.some.inj read)
      exact plain

theorem primary_placed {inner : Reader} (reads : ReadsPlaced line inner) :
    ReadsPlaced line (primary line inner) := by
  intro text left node single read
  have later := not_mem_skipSpaces single
  refine Covers.skipFront ?_
  simp only [primary] at read
  split at read
  · next inside opened =>
    rw [opened] at later ⊢
    split at read
    · simp at read
    · next other after found =>
      split at read
      · next rest closed =>
        obtain ⟨rfl, rfl⟩ := Prod.mk.inj (Option.some.inj read)
        have covers := (reads (fun member => later (by simp [member])) found).skipBack
        rw [closed] at covers
        exact (covers.leave [')']).behind ['(']
      · simp at read
  · next inside opened =>
    obtain ⟨⟨before, rest⟩, cut, same⟩ := Option.map_eq_some_iff.1 read
    obtain ⟨rfl, rfl⟩ := Prod.mk.inj same
    rw [opened, Text.eq_append_of_cutAt? cut]
    exact ⟨sound_leaf (by decide) line _, rfl, ⟨'"' :: before, '"', by simp [Node.leaf], by decide⟩,
      [], [], by simp [Node.leaf]⟩
  · next inside opened =>
    rw [opened] at later ⊢
    obtain ⟨whole, own, sound, firm, -⟩ := expansion_placed later read
    exact ⟨sound, own, firm, [], [], whole⟩
  · exact nameOrDefined_placed later read

theorem conditionWithin_placed (depth : Nat) : ReadsPlaced line (conditionWithin line depth) := by
  induction depth with
  | zero =>
    intro text left node single read
    simp [conditionWithin] at read
  | succ depth ih =>
    exact joined_placed rfl ⟨['|'], '|', rfl, by decide⟩ <|
      joined_placed rfl ⟨['&'], '&', rfl, by decide⟩ <|
        comparison_placed (negation_placed (primary_placed ih))

theorem condition_placed : ReadsPlaced line (condition line) :=
  fun single read => conditionWithin_placed _ single read

end BmakeZig.Source
