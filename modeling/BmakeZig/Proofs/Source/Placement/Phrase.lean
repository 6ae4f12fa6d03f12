import BmakeZig.Proofs.Source.Shape
import BmakeZig.Proofs.Tree.Placement

/-! Where the nodes of a phrase stand. For every reader of a part of one line there is one lemma,
which says how the text it was given splits into what it covered and what it left. -/
namespace BmakeZig.Source

variable {line : Nat} {text left : Text} {node : Node} {nodes : List Node}

theorem skipSpaces_split (text : Text) : ∃ gap, text = gap ++ Text.skipSpaces text := by
  obtain ⟨gap, whole⟩ := Text.skipSpaces_isSuffix text
  exact ⟨gap, whole.symm⟩

theorem not_mem_skipSpaces {c : Char} (absent : c ∉ text) : c ∉ Text.skipSpaces text :=
  fun member => absent (Text.mem_of_mem_skipSpaces member)

theorem sound_identifier (line : Nat) (name : Text) : Sound (.leaf .identifier line name) :=
  sound_leaf (by decide) line name

theorem laid_name {rest name : Text} (single : '\n' ∉ name) (laid : Laid line rest nodes) :
    Laid line (name ++ rest) (.leaf .identifier line name :: nodes) :=
  .first (sound_identifier line name) rfl single laid

/-- A name is laid at the start of what is taken up to the next word. -/
theorem laid_lastName {name after : Text} (single : '\n' ∉ text)
    (found : Text.name? text = some (name, after)) :
    ∃ used, text = used ++ Text.skipSpaces after ∧ Laid line used [.leaf .identifier line name] := by
  obtain ⟨gap, behind⟩ := skipSpaces_split after
  have whole := Text.name?_eq_append found
  rw [whole, List.mem_append, not_or] at single
  exact ⟨name ++ gap, by rw [whole, List.append_assoc, ← behind], laid_name single.1 .done⟩

theorem laid_names (single : '\n' ∉ text) (read : names line text = some (nodes, left)) :
    ∃ used, text = used ++ left ∧ Laid line used nodes := by
  fun_induction names line text generalizing nodes left with
  | case1 => simp at read
  | case2 text name after found rest next shorter ih =>
    obtain ⟨⟨inner, last⟩, again, same⟩ := Option.map_eq_some_iff.1 read
    obtain ⟨rfl, rfl⟩ := Prod.mk.inj same
    obtain ⟨before, behindName⟩ := skipSpaces_split after
    obtain ⟨gap, behindComma⟩ := skipSpaces_split rest
    have whole : text = name ++ (before ++ ([','] ++ (gap ++ Text.skipSpaces rest))) := by
      rw [← behindComma, List.singleton_append, ← next, ← behindName]
      exact Text.name?_eq_append found
    rw [whole] at single
    simp only [List.mem_append, not_or] at single
    obtain ⟨used, listed, laid⟩ := ih single.2.2.2.2 again
    refine ⟨name ++ (before ++ ([','] ++ (gap ++ used))), by simp [whole, ← listed], ?_⟩
    refine laid_name single.1 (.word (sound_token line [',']) rfl ?_ (laid.indent single.2.2.2.1))
    simpa [Node.token] using single.2.1
  | case3 text name after found =>
    obtain ⟨rfl, rfl⟩ := Prod.mk.inj (Option.some.inj read)
    exact laid_lastName single found

theorem laid_oneName (single : '\n' ∉ text) (read : oneName line text = some (nodes, left)) :
    ∃ used, text = used ++ left ∧ Laid line used nodes := by
  obtain ⟨⟨name, after⟩, found, same⟩ := Option.map_eq_some_iff.1 read
  obtain ⟨rfl, rfl⟩ := Prod.mk.inj same
  exact laid_lastName single found

theorem laid_expansionContent {mode : Mode} (single : '\n' ∉ text)
    (read : expansionContent line mode text = some (nodes, left)) :
    ∃ used, text = used ++ left ∧ Laid line used nodes := by
  unfold expansionContent at read
  split at read
  · next after =>
    obtain ⟨⟨name, rest⟩, found, more⟩ := Option.bind_eq_some_iff.1 read
    obtain ⟨⟨inner, last⟩, listed, same⟩ := Option.map_eq_some_iff.1 more
    obtain ⟨rfl, rfl⟩ := Prod.mk.inj same
    obtain ⟨gap, behind⟩ := skipSpaces_split rest
    have whole : '@' :: after = ('@' :: name) ++ (gap ++ Text.skipSpaces rest) := by
      rw [← behind, List.cons_append, ← Text.name?_eq_append found]
    rw [whole] at single
    simp only [List.mem_append, not_or] at single
    obtain ⟨used, inside, laid⟩ := laid_names single.2.2 listed
    refine ⟨('@' :: name) ++ (gap ++ used), by simp [whole, ← inside], ?_⟩
    exact .first (sound_leaf (by decide) line ('@' :: name)) rfl single.1 (laid.indent single.2.1)
  · exact laid_oneName single read

theorem expansion_placed (single : '\n' ∉ text) (read : expansion line text = some (node, left)) :
    text = node.text ++ left ∧ node.line = line ∧ Sound node ∧ Text.Firm node.text ∧
      node.kind ≠ .literal := by
  unfold expansion at read
  split at read
  · next c inside =>
    split at read
    · simp at read
    · next mode opened =>
      split at read
      · next content closing rest inner =>
        split at read
        · next closes =>
          obtain ⟨rfl, rfl⟩ := Prod.mk.inj (Option.some.inj read)
          obtain ⟨gap, behind⟩ := skipSpaces_split inside
          rw [behind] at single ⊢
          simp only [List.mem_cons, List.mem_append, not_or] at single
          obtain ⟨used, whole, laid⟩ := laid_expansionContent single.2.2.2 inner
          -- The opening, the content behind its spaces, the closing, and what was left.
          have shape : '$' :: c :: (gap ++ Text.skipSpaces inside) =
              (['$', c] ++ ((gap ++ used) ++ [closing])) ++ rest := by simp [whole]
          rw [whole] at single
          simp only [List.mem_append, List.mem_cons, not_or] at single
          have last : Laid line [closing] [.token line [closing]] :=
            .first (sound_token line [closing]) rfl (by simp [Node.token, single.2.2.2.2.1]) .done
          have inner : Laid line ((gap ++ used) ++ [closing]) (content ++ [.token line [closing]]) := by
            refine (laid.indent single.2.2.1).append ?_
            rwa [count_newline (by simp [single]), Nat.add_zero]
          rw [shape, Text.consumed_append]
          refine ⟨rfl, rfl, sound_branch rfl ?_, ?_, by simp [Node.branch]⟩
          · exact .first (sound_token line ['$', c]) rfl (by simp [Node.token, single.2.1]) inner
          · refine Text.Firm.append_left (Text.Firm.append_left ⟨[], closing, rfl, ?_⟩ _) _
            rw [closes]
            cases mode <;> decide
        · simp at read
      · simp at read
  · simp at read

/-- The nodes are all of the text, each of them where its own text is. -/
structure Pieces (line : Nat) (text : Text) (nodes : List Node) : Prop where
  whole : nodes.flatMap (·.text) = text
  sound : ∀ node ∈ nodes, Sound node
  own : ∀ node ∈ nodes, node.line = line
  filled : ∀ node ∈ nodes, node.kind = .literal → node.text ≠ []
  apart : Apart .literal nodes

theorem Pieces.cons {rest : Text} (pieces : Pieces line rest nodes) (sound : Sound node)
    (own : node.line = line) (filled : node.kind = .literal → node.text ≠ [])
    (other : ∀ next ∈ nodes.head?, ¬(node.kind = .literal ∧ next.kind = .literal)) :
    Pieces line (node.text ++ rest) (node :: nodes) where
  whole := by rw [List.flatMap_cons, pieces.whole]
  sound := by simpa using ⟨sound, pieces.sound⟩
  own := by simpa using ⟨own, pieces.own⟩
  filled := by simpa using ⟨filled, pieces.filled⟩
  apart := List.isChain_cons.2 ⟨other, pieces.apart⟩

theorem Pieces.tail (pieces : Pieces line text (node :: nodes)) :
    text = node.text ++ nodes.flatMap (·.text) ∧ Pieces line (nodes.flatMap (·.text)) nodes ∧
      ∀ next ∈ nodes.head?, ¬(node.kind = .literal ∧ next.kind = .literal) := by
  obtain ⟨other, apart⟩ := List.isChain_cons.1 pieces.apart
  refine ⟨by simpa using pieces.whole.symm, ⟨rfl, ?_, ?_, ?_, apart⟩, other⟩
  · exact fun other member => pieces.sound other (List.mem_cons_of_mem _ member)
  · exact fun other member => pieces.own other (List.mem_cons_of_mem _ member)
  · exact fun other member => pieces.filled other (List.mem_cons_of_mem _ member)

theorem pieces_consLiteral (c : Char) (pieces : Pieces line text nodes) :
    Pieces line (c :: text) (consLiteral line c nodes) := by
  unfold consLiteral
  split
  · next named other literal children rest =>
    obtain ⟨shape, others, apart⟩ := pieces.tail
    rw [shape]
    exact others.cons (sound_leaf (by decide) line (c :: literal)) rfl (by simp [Node.leaf]) apart
  · next other =>
    refine pieces.cons (sound_leaf (by decide) line [c]) rfl (by simp [Node.leaf]) ?_
    -- A literal in front would have been joined to.
    rintro ⟨kind, named, own, literal, children⟩ first ⟨-, same⟩
    obtain ⟨rest, rfl⟩ := List.head?_eq_some_iff.1 first
    obtain rfl : kind = .literal := same
    exact other named own literal children rest rfl

theorem pieces_placed (single : '\n' ∉ text) : Pieces line text (pieces line text) := by
  fun_induction pieces line text with
  | case1 => exact ⟨rfl, by simp, by simp, by simp, .nil⟩
  | case2 rest ih =>
    exact pieces_consLiteral _ (pieces_consLiteral _ (ih (by simpa using single)))
  | case3 after notTwo node rest read shorter ih =>
    obtain ⟨whole, own, sound, -, other⟩ := expansion_placed single read
    rw [whole, List.mem_append, not_or] at single
    rw [whole]
    exact (ih single.2).cons sound own (fun same => absurd same other) fun _ _ same => other same.1
  | case4 after notTwo failed ih =>
    exact pieces_consLiteral _ (ih (by simpa using single))
  | case5 c rest notTwo notOne ih =>
    exact pieces_consLiteral _ (ih fun member => single (List.mem_cons_of_mem _ member))

theorem Pieces.laid (pieces : Pieces line text nodes) (single : '\n' ∉ text) :
    Laid line text nodes := by
  induction nodes generalizing text with
  | nil => exact .done
  | cons node nodes ih =>
    obtain ⟨whole, others, -⟩ := pieces.tail
    rw [whole, List.mem_append, not_or] at single
    rw [whole]
    exact .first (pieces.sound node (by simp)) (pieces.own node (by simp)) single.1
      (ih others single.2)

theorem phrase_line (kind : Kind) (line : Nat) (text : Text) : (phrase kind line text).line = line :=
  rfl

theorem phrase_text (kind : Kind) (line : Nat) (text : Text) :
    (phrase kind line text).text = Text.trimEnd text :=
  rfl

theorem sound_phrase {kind : Kind} (isPhrase : kind.isPhrase = true) (single : '\n' ∉ text) :
    Sound (phrase kind line text) := by
  intro source offset stands
  have kept : '\n' ∉ Text.trimEnd text := fun member => single (Text.mem_of_mem_trimEnd member)
  have found : Pieces line _ _ := pieces_placed kept
  obtain ⟨starts, maps, ordered⟩ := (found.laid kept).placed stands
  refine .intro stands maps ordered (fun lists => ?_) fun _ => ⟨found.whole, found.filled, found.apart⟩
  have other : kind.listsStatements = false := by
    cases kind <;> simp_all [Kind.isPhrase, Kind.listsStatements]
  exact absurd lists (by simp [phrase, Node.branch, other])

end BmakeZig.Source
