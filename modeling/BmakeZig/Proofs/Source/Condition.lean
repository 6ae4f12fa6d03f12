import BmakeZig.Proofs.Source.Sentence

/-! The reader understands the grammar of conditions. The two levels that repeat an operator are left
recursive in the grammar and a loop in the reader, so what is proved of them is how far the loop
has come; a level is finished when no operator of its own follows. -/
namespace BmakeZig.Source

/-! Reading expansions. -/

variable {line : Nat} {text rest : Text} {node : Node} {nodes : List Node}

/-- Spaces go on with no name, and neither does the character behind them. -/
theorem gap_stops {gap : Text} {c : Char} (spaces : Gap gap) (other : Text.isNameChar c = false)
    (rest : Text) : ∀ d ∈ (gap ++ c :: rest).head?, Text.isNameChar d = false := by
  intro d first
  cases gap with
  | nil =>
    obtain rfl := Option.some.inj first
    exact other
  | cons e gap =>
    obtain rfl := Option.some.inj first
    exact Text.isNameChar_of_isSpace (spaces e (by simp))

theorem name?_gap {name gap : Text} {c : Char} (named : Text.isName name = true) (spaces : Gap gap)
    (other : Text.isNameChar c = false) (rest : Text) :
    Text.name? (name ++ gap ++ c :: rest) = some (name, gap ++ c :: rest) := by
  rw [List.append_assoc]
  exact Text.name?_append named (gap_stops spaces other rest)

theorem skipSpaces_gap {gap : Text} {c : Char} (spaces : Gap gap) (solid : Text.isSpace c = false)
    (rest : Text) : Text.skipSpaces (gap ++ c :: rest) = c :: rest := by
  rw [Text.skipSpaces_append spaces]
  simp [Text.skipSpaces, solid]

theorem oneName_gap {name gap : Text} {c : Char} (named : Text.isName name = true)
    (spaces : Gap gap) (solid : Text.isSpace c = false) (other : Text.isNameChar c = false)
    (rest : Text) :
    oneName line (name ++ gap ++ c :: rest) =
      some ([.leaf .identifier line name], c :: rest) := by
  rw [oneName, name?_gap named spaces other, Option.map_some, skipSpaces_gap spaces solid]

theorem names_last {name after : Text} (found : Text.name? text = some (name, after))
    (next : Text.skipSpaces after = rest) (stop : rest.head? ≠ some ',') :
    names line text = some ([.leaf .identifier line name], rest) := by
  unfold names
  split
  · next none_found => simp [none_found] at found
  · next first left same =>
    obtain ⟨rfl, rfl⟩ := Prod.mk.inj (Option.some.inj (same.symm.trans found))
    split
    · next behind comma =>
      rw [← next, comma] at stop
      exact absurd rfl stop
    · rw [next]

theorem names_comma {name after behind : Text} (found : Text.name? text = some (name, after))
    (next : Text.skipSpaces after = ',' :: behind) :
    names line text = (names line (Text.skipSpaces behind)).map fun more =>
      (.leaf .identifier line name :: .token line [','] :: more.1, more.2) := by
  rw [names]
  split
  · next none_found => simp [none_found] at found
  · next first left same =>
    obtain ⟨rfl, rfl⟩ := Prod.mk.inj (Option.some.inj (same.symm.trans found))
    split
    · next comma =>
      obtain rfl := (List.cons.inj (comma.symm.trans next)).2
      rfl
    · next other => exact absurd next (other behind)

theorem Listing.skip (listed : Listing line text nodes) (rest : Text) :
    Text.skipSpaces (text ++ rest) = text ++ rest := by
  cases listed with
  | last named => simpa using (Solid.ofName named).skip _
  | more named => simpa using (Solid.ofName named).skip _

theorem names_listing (listed : Listing line text nodes) {c : Char}
    (solid : Text.isSpace c = false) (other : Text.isNameChar c = false) (stop : c ≠ ',')
    (rest : Text) : names line (text ++ c :: rest) = some (nodes, c :: rest) := by
  induction listed with
  | last named spaces =>
    exact names_last (name?_gap named spaces other rest) (skipSpaces_gap spaces solid rest)
      (by simpa using stop)
  | @more name before after text nodes named spaces spacesAfter listed ih =>
    have found := name?_gap named spaces (show Text.isNameChar ',' = false by decide)
      (after ++ (text ++ c :: rest))
    have next := skipSpaces_gap spaces (show Text.isSpace ',' = false by decide)
      (after ++ (text ++ c :: rest))
    have shape : name ++ before ++ ',' :: after ++ text ++ c :: rest =
        name ++ before ++ ',' :: (after ++ (text ++ c :: rest)) := by simp
    rw [shape, names_comma found next, Text.skipSpaces_append spacesAfter, listed.skip, ih]
    rfl

theorem expansionContent_content {mode : Mode} (content : Content line mode text nodes)
    (rest : Text) :
    expansionContent line mode (text ++ mode.closing :: rest) =
      some (nodes, mode.closing :: rest) := by
  have solid : Text.isSpace mode.closing = false := by cases mode <;> decide
  have other : Text.isNameChar mode.closing = false := by cases mode <;> decide
  cases content with
  | @name mode name gap named spaces =>
    -- A name does not start like a modifier.
    have start : ∀ after, name ++ gap ++ mode.closing :: rest ≠ '@' :: after := by
      intro after same
      obtain ⟨c, name, rfl⟩ := List.exists_cons_of_ne_nil (Solid.ofName named).filled
      have first : c = '@' := by simpa using congrArg List.head? same
      subst first
      have word : Text.isNameChar '@' = true := Text.isNameChar_of_mem named (by simp)
      exact absurd word (by decide)
    unfold expansionContent
    split
    · next after same => exact absurd same (start after)
    · exact oneName_gap named spaces solid other rest
  | @modified modifier gap text nodes named spaces filled listed =>
    obtain ⟨d, gap, rfl⟩ := List.exists_cons_of_ne_nil filled
    have space := spaces d (by simp)
    have found : Text.name? (modifier ++ (d :: gap ++ (text ++ Mode.immediate.closing :: rest))) =
        some (modifier, d :: gap ++ (text ++ Mode.immediate.closing :: rest)) := by
      refine Text.name?_append named fun e first => ?_
      obtain rfl := Option.some.inj first
      exact Text.isNameChar_of_isSpace space
    have shape : '@' :: modifier ++ d :: gap ++ text ++ Mode.immediate.closing :: rest =
        '@' :: (modifier ++ (d :: gap ++ (text ++ Mode.immediate.closing :: rest))) := by simp
    rw [shape]
    simp only [expansionContent, found, Option.bind_some, Text.skipSpaces_append spaces, listed.skip,
      names_listing listed solid other (show Mode.immediate.closing ≠ ',' by decide), Option.map_some]

theorem expansion_content {mode : Mode} {gap : Text} (spaces : Gap gap)
    (content : Content line mode text nodes) (rest : Text) :
    expansion line (expansionText mode gap text ++ rest) =
      some (expansionNode line mode (expansionText mode gap text) nodes, rest) := by
  have start : Text.skipSpaces (text ++ mode.closing :: rest) = text ++ mode.closing :: rest := by
    cases content with
    | name named => simpa using (Solid.ofName named).skip _
    | modified => simp [Text.skipSpaces, Text.isSpace]
  have inside : Text.skipSpaces (gap ++ (text ++ mode.closing :: rest)) =
      text ++ mode.closing :: rest := by
    rw [Text.skipSpaces_append spaces, start]
  have shape : expansionText mode gap text ++ rest =
      '$' :: mode.opening :: (gap ++ (text ++ mode.closing :: rest)) := by simp [expansionText]
  have taken : Text.consumed ('$' :: mode.opening :: (gap ++ (text ++ mode.closing :: rest))) rest =
      expansionText mode gap text := by
    rw [← shape, Text.consumed_append]
  rw [shape]
  simp only [expansion, Mode.ofOpening?_opening, inside, expansionContent_content content, if_true,
    taken, expansionNode]

/-! Reading the levels. -/

/-- The reader of a level, when brackets may still stand `depth` deep. -/
def readerOf (line depth : Nat) : Level → Reader
  | .primary => primary line (conditionWithin line depth)
  | .not => negation line (primary line (conditionWithin line depth))
  | .eq => comparison line (negation line (primary line (conditionWithin line depth)))
  | .and => joined line .and ['&', '&']
      (comparison line (negation line (primary line (conditionWithin line depth))))
  | .or => conditionWithin line (depth + 1)

/-- Whether the operator stands next, behind spaces. -/
def Next (operator rest : Text) : Prop :=
  (Text.after? operator (Text.skipSpaces rest)).isSome = true

/-- The operators of a level and of the tighter ones. -/
def Level.operators : Level → List Text
  | .primary | .not => []
  | .eq => [['=', '=']]
  | .and => [['&', '&'], ['=', '=']]
  | .or => [['|', '|'], ['&', '&'], ['=', '=']]

/-- What may follow a sentence of a level without becoming part of it: it goes on with no name, opens
no bracket behind a word, and has none of the level's operators next. -/
structure Ends (level : Level) (rest : Text) : Prop where
  word : ∀ c ∈ rest.head?, Text.isNameChar c = false
  bracket : (Text.skipSpaces rest).head? ≠ some '('
  operator : ∀ operator ∈ level.operators, ¬ Next operator rest

theorem Ends.mono {loose tight : Level} (ends : Ends loose rest)
    (fewer : tight.operators ⊆ loose.operators) : Ends tight rest :=
  ⟨ends.word, ends.bracket, fun operator member => ends.operator operator (fewer member)⟩

/-- Behind an operand stands an operator that is none of the operand's own. -/
theorem ends_operator {level : Level} {gap operator : Text} {c : Char} (spaces : Gap gap)
    (word : Text.isNameChar c = false) (space : Text.isSpace c = false) (bracket : c ≠ '(')
    (other : ∀ own ∈ level.operators, Text.after? own (c :: operator) = none) :
    Ends level (gap ++ c :: operator) := by
  have next := skipSpaces_gap spaces space operator
  refine ⟨gap_stops spaces word operator, ?_, fun own member => ?_⟩
  · simpa [next] using bracket
  · simp [Next, next, other own member]

theorem ends_nil (level : Level) : Ends level [] := by
  refine ⟨by simp, by simp [Text.skipSpaces], fun operator member => ?_⟩
  cases level <;> simp only [Level.operators, List.mem_cons, List.not_mem_nil, or_false] at member
  · rcases member with rfl | rfl | rfl <;> simp [Next, Text.skipSpaces, Text.after?]
  · rcases member with rfl | rfl <;> simp [Next, Text.skipSpaces, Text.after?]
  · simp [member, Next, Text.skipSpaces, Text.after?]

/-- `left` is `rest` without some of the spaces it starts with. -/
def Behind (rest left : Text) : Prop :=
  ∃ gap, Gap gap ∧ rest = gap ++ left

theorem behind_self (rest : Text) : Behind rest rest :=
  ⟨[], by simp [Gap], rfl⟩

theorem behind_skip (rest : Text) : Behind rest (Text.skipSpaces rest) :=
  ⟨rest.takeWhile Text.isSpace, fun _ member => List.mem_takeWhile_imp member,
    List.takeWhile_append_dropWhile.symm⟩

theorem Behind.skip {left : Text} (behind : Behind rest left) :
    Text.skipSpaces left = Text.skipSpaces rest := by
  obtain ⟨gap, spaces, rfl⟩ := behind
  rw [Text.skipSpaces_append spaces]

theorem Behind.trans {middle left : Text} (first : Behind rest middle) (second : Behind middle left) :
    Behind rest left := by
  obtain ⟨gap, spaces, rfl⟩ := first
  obtain ⟨more, others, rfl⟩ := second
  refine ⟨gap ++ more, fun c member => ?_, by simp⟩
  exact (List.mem_append.1 member).elim (spaces c) (others c)

/-- The span of a node ends where its last word ends, whatever spaces were passed behind it. -/
theorem Behind.span {left : Text} (behind : Behind rest left) (solid : Solid text) :
    Text.trimEnd (Text.consumed (text ++ rest) left) = text := by
  obtain ⟨gap, spaces, rfl⟩ := behind
  rw [← List.append_assoc, Text.consumed_append, solid.trim spaces]

/-- A reader that takes a text for a node, whatever may follow. -/
def Takes (reader : Reader) (level : Level) (text : Text) (node : Node) : Prop :=
  ∀ gap rest, Gap gap → Ends level rest →
    ∃ left, reader (gap ++ text ++ rest) = some (node, left) ∧ Behind rest left

/-- A loop over an operator that has come to the end of a text with a node, and has more turns left
than there are characters. -/
def Reaches (kind : Kind) (operator : Text) (operand : Reader) (line : Nat) (level : Level)
    (text : Text) (node : Node) : Prop :=
  ∀ gap rest, Gap gap → Ends level rest →
    ∃ limit left, left.length < limit ∧ Behind rest left ∧
      joined line kind operator operand (gap ++ text ++ rest) =
        operands line kind operator operand (text ++ rest) limit node left

variable {kind : Kind} {operator : Text} {operand : Reader} {level : Level}

theorem skip_solid {gap : Text} (spaces : Gap gap) (solid : Solid text) (rest : Text) :
    Text.skipSpaces (gap ++ text ++ rest) = text ++ rest := by
  rw [List.append_assoc, Text.skipSpaces_append spaces, solid.skip]

theorem reaches_of_takes (solid : Solid text) (takes : Takes operand level text node) :
    Reaches kind operator operand line level text node := by
  intro gap rest spaces ends
  obtain ⟨left, read, behind⟩ := takes [] rest (by simp [Gap]) ends
  refine ⟨left.length + 1, left, by omega, behind, ?_⟩
  simp only [List.nil_append] at read
  simp only [joined, skip_solid spaces solid, read]

/-- One turn of the loop. -/
theorem Reaches.turn {before after leftText rightText : Text} {left right : Node}
    (first : Reaches kind operator operand line level leftText left)
    (second : Takes operand level rightText right) (solids : Solid leftText ∧ Solid rightText)
    (spaces : Gap before ∧ Gap after)
    (apart : ∀ rest, Ends level (before ++ operator ++ rest))
    (plain : ∀ rest, Text.skipSpaces (operator ++ rest) = operator ++ rest) :
    Reaches kind operator operand line level (joinedText leftText before operator after rightText)
      (joinedNode kind line (joinedText leftText before operator after rightText) operator
        left right) := by
  intro gap rest blanks ends
  have split : joinedText leftText before operator after rightText ++ rest =
      leftText ++ (before ++ operator ++ (after ++ rightText ++ rest)) := by simp [joinedText]
  obtain ⟨limit, reached, short, behind, read⟩ :=
    first gap _ blanks (apart (after ++ rightText ++ rest))
  obtain ⟨left', taken, behind'⟩ := second after rest spaces.2 ends
  have next : Text.skipSpaces reached = operator ++ (after ++ rightText ++ rest) := by
    rw [behind.skip, List.append_assoc, Text.skipSpaces_append spaces.1, plain]
  -- A turn takes the operator and an operand, so the turns left still outnumber the characters.
  have shorter : left'.length < reached.length := by
    have skipped := Text.length_skipSpaces_le reached
    have some_right := List.length_pos_iff.2 solids.2.filled
    obtain ⟨gap', _, rfl⟩ := behind'
    simp only [next, List.length_append] at skipped
    omega
  obtain ⟨limit, rfl⟩ : ∃ n, limit = n + 1 := ⟨limit - 1, by omega⟩
  refine ⟨limit, left', by omega, behind', ?_⟩
  have whole : gap ++ joinedText leftText before operator after rightText ++ rest =
      gap ++ leftText ++ (before ++ operator ++ (after ++ rightText ++ rest)) := by
    simp [joinedText]
  rw [whole, read, operands, next, Text.after?_append]
  simp only [taken, ← split, behind'.span (solids.1.joined solids.2 before operator after),
    joinedNode]

/-- A loop stops where its operator does not follow. -/
theorem takes_of_reaches {looser : Level} (reaches : Reaches kind operator operand line level text node)
    (own : operator ∈ looser.operators) (fewer : level.operators ⊆ looser.operators) :
    Takes (joined line kind operator operand) looser text node := by
  intro gap rest spaces ends
  obtain ⟨limit, left, short, behind, read⟩ := reaches gap rest spaces (ends.mono fewer)
  obtain ⟨limit, rfl⟩ : ∃ n, limit = n + 1 := ⟨limit - 1, by omega⟩
  have stop : Text.after? operator (Text.skipSpaces left) = none := by
    simpa [Next, behind.skip] using ends.operator operator own
  refine ⟨Text.skipSpaces left, ?_, behind.trans (behind_skip left)⟩
  rw [read, operands, stop]

theorem comparison_takes (solid : Solid text) (takes : Takes operand .not text node) :
    Takes (comparison line operand) .eq text node := by
  intro gap rest spaces ends
  obtain ⟨left, read, behind⟩ := takes [] rest (by simp [Gap]) (ends.mono (by simp [Level.operators]))
  have stop : Text.after? ['=', '='] (Text.skipSpaces left) = none := by
    simpa [Next, behind.skip] using ends.operator _ (by simp [Level.operators])
  simp only [List.nil_append] at read
  refine ⟨Text.skipSpaces left, ?_, behind.trans (behind_skip left)⟩
  simp only [comparison, skip_solid spaces solid, read, stop]

theorem comparison_takes_equal {before after leftText rightText : Text} {left right : Node}
    (first : Takes operand .not leftText left) (second : Takes operand .not rightText right)
    (solids : Solid leftText ∧ Solid rightText) (spaces : Gap before ∧ Gap after) :
    Takes (comparison line operand) .eq (joinedText leftText before ['=', '='] after rightText)
      (joinedNode .eq line (joinedText leftText before ['=', '='] after rightText) ['=', '=']
        left right) := by
  intro gap rest blanks ends
  have split : joinedText leftText before ['=', '='] after rightText ++ rest =
      leftText ++ (before ++ '=' :: '=' :: (after ++ rightText ++ rest)) := by simp [joinedText]
  have apart : Ends .not (before ++ '=' :: '=' :: (after ++ rightText ++ rest)) :=
    ends_operator spaces.1 (by decide) (by decide) (by decide) (by simp [Level.operators])
  obtain ⟨middle, read, behind⟩ := first [] _ (by simp [Gap]) apart
  obtain ⟨left', taken, behind'⟩ := second after rest spaces.2
    (ends.mono (by simp [Level.operators]))
  have next : Text.skipSpaces middle = '=' :: '=' :: (after ++ rightText ++ rest) := by
    rw [behind.skip, skipSpaces_gap spaces.1 (by decide)]
  refine ⟨left', ?_, behind'⟩
  have solid := solids.1.joined solids.2 before ['=', '='] after
  rw [List.nil_append, ← split] at read
  simp only [comparison, skip_solid blanks solid, read, next, Text.after?, if_true, taken,
    Option.map_some, behind'.span solid, joinedNode]

theorem negation_skip (next : Text.skipSpaces text = rest) (other : rest.head? ≠ some '!') :
    negation line operand text = operand rest := by
  unfold negation
  split
  · next behind found =>
    rw [← next, found] at other
    exact absurd rfl other
  · rw [next]

theorem negation_mark {behind : Text} (next : Text.skipSpaces text = '!' :: behind) :
    negation line operand text = (negation line operand behind).map fun inner =>
      (.branch .not line (Text.trimEnd (Text.consumed ('!' :: behind) inner.2))
        [.token line ['!'], inner.1], inner.2) := by
  rw [negation]
  split
  · next found =>
    obtain rfl := (List.cons.inj (found.symm.trans next)).2
    rfl
  · next other => exact absurd next (other behind)

theorem negation_takes (solid : Solid text) (start : text.head? ≠ some '!')
    (takes : Takes operand .primary text node) : Takes (negation line operand) .not text node := by
  intro gap rest spaces ends
  obtain ⟨left, read, behind⟩ := takes [] rest (by simp [Gap]) (ends.mono (by simp [Level.operators]))
  refine ⟨left, ?_, behind⟩
  rw [negation_skip (skip_solid spaces solid rest)]
  · simpa using read
  · rwa [List.head?_append_of_ne_nil _ solid.filled]

theorem negation_takes_mark {gap : Text} (spaces : Gap gap) (solid : Solid text)
    (takes : Takes (negation line operand) .not text node) :
    Takes (negation line operand) .not ('!' :: gap ++ text)
      (.branch .not line ('!' :: gap ++ text) [.token line ['!'], node]) := by
  intro front rest blanks ends
  obtain ⟨left, read, behind⟩ := takes gap rest spaces ends
  have whole : Solid ('!' :: gap ++ text) := (Solid.singleton (by decide)).append solid gap
  refine ⟨left, ?_, behind⟩
  have next : Text.skipSpaces (front ++ ('!' :: gap ++ text) ++ rest) =
      '!' :: (gap ++ text ++ rest) := by
    rw [skip_solid blanks whole]
    simp
  have span := behind.span whole
  simp only [List.cons_append] at span
  rw [negation_mark next, read, Option.map_some, span]
  simp

/-! A primary is told by its first character. -/

variable {inner : Reader}

theorem nameOrDefined_word (line : Nat) {word : Text} (named : Text.isName word = true)
    (ends : Ends .primary rest) :
    ∃ left, nameOrDefined line (word ++ rest) = some (.leaf .identifier line word, left) ∧
      Behind rest left := by
  have found := Text.name?_append named ends.word
  simp only [nameOrDefined, found]
  split
  · split
    · next inside next =>
      -- The word is `defined`, which is a name like any other unless a bracket follows.
      have bracket := ends.bracket
      simp [next] at bracket
    · exact ⟨_, rfl, behind_skip rest⟩
  · exact ⟨_, rfl, behind_self rest⟩

theorem primary_takes_name {word : Text} (named : Text.isName word = true) :
    Takes (primary line inner) .primary word (.leaf .identifier line word) := by
  intro gap rest spaces ends
  obtain ⟨left, read, behind⟩ := nameOrDefined_word line named ends
  refine ⟨left, ?_, behind⟩
  have word_first : ∀ c ∈ (word ++ rest).head?, Text.isNameChar c = true := by
    intro c first
    rw [List.head?_append_of_ne_nil _ (Solid.ofName named).filled] at first
    exact Text.isNameChar_of_mem named (List.mem_of_mem_head? first)
  simp only [primary, skip_solid spaces (Solid.ofName named)]
  split
  · next same => exact absurd (word_first '(' (by simp [same])) (by decide)
  · next same => exact absurd (word_first '"' (by simp [same])) (by decide)
  · next same => exact absurd (word_first '$' (by simp [same])) (by decide)
  · exact read

theorem primary_takes_string {inside : Text} (plain : '"' ∉ inside) :
    Takes (primary line inner) .primary ('"' :: inside ++ ['"'])
      (.leaf .string line ('"' :: inside ++ ['"'])) := by
  intro gap rest spaces ends
  have solid : Solid ('"' :: inside ++ ['"']) := .enclosed (by decide) (by decide) inside
  have next := skip_solid spaces solid rest
  simp only [List.cons_append, List.append_assoc, List.nil_append] at next
  refine ⟨rest, ?_, behind_self rest⟩
  simp only [primary, next, List.cons_append, List.append_assoc, List.nil_append,
    Text.cutAt?_append plain, Option.map_some]

theorem primary_takes_expansion {mode : Mode} {gap : Text} (spaces : Gap gap)
    (content : Content line mode text nodes) :
    Takes (primary line inner) .primary (expansionText mode gap text)
      (expansionNode line mode (expansionText mode gap text) nodes) := by
  intro front rest blanks ends
  have solid := (Sentence.expansion spaces content).solid
  have read := expansion_content spaces content rest
  refine ⟨rest, ?_, behind_self rest⟩
  simp only [primary, skip_solid blanks solid]
  rw [expansionText, List.cons_append, List.cons_append, List.cons_append] at read ⊢
  exact read

theorem primary_takes_defined {before inside target after : Text}
    (spaces : Gap before ∧ Gap inside ∧ Gap after) (named : Text.isName target = true) :
    Takes (primary line inner) .primary
      ("defined".toList ++ before ++ '(' :: inside ++ target ++ after ++ [')'])
      (.branch .isDefined line
        ("defined".toList ++ before ++ '(' :: inside ++ target ++ after ++ [')'])
        [.token line "defined".toList, .token line ['('], .leaf .identifier line target,
          .token line [')']]) := by
  intro gap rest blanks ends
  have sentence : Sentence line .primary _ _ := .defined spaces named
  have shape : "defined".toList ++ before ++ '(' :: inside ++ target ++ after ++ [')'] ++ rest =
      "defined".toList ++ before ++ '(' :: (inside ++ (target ++ after ++ ')' :: rest)) := by simp
  have word := name?_gap (show Text.isName "defined".toList = true by decide) spaces.1
    (show Text.isNameChar '(' = false by decide) (inside ++ (target ++ after ++ ')' :: rest))
  have opened := skipSpaces_gap spaces.1 (show Text.isSpace '(' = false by decide)
    (inside ++ (target ++ after ++ ')' :: rest))
  have inner_name := name?_gap named spaces.2.2 (show Text.isNameChar ')' = false by decide) rest
  have start : Text.skipSpaces (inside ++ (target ++ after ++ ')' :: rest)) =
      target ++ after ++ ')' :: rest := by
    rw [Text.skipSpaces_append spaces.2.1, List.append_assoc, (Solid.ofName named).skip]
  have closed := skipSpaces_gap spaces.2.2 (show Text.isSpace ')' = false by decide) rest
  have taken := Text.consumed_append
    ("defined".toList ++ before ++ '(' :: inside ++ target ++ after ++ [')']) rest
  refine ⟨rest, ?_, behind_self rest⟩
  have read : nameOrDefined line
      ("defined".toList ++ before ++ '(' :: inside ++ target ++ after ++ [')'] ++ rest) =
      some (.branch .isDefined line
        ("defined".toList ++ before ++ '(' :: inside ++ target ++ after ++ [')'])
        [.token line "defined".toList, .token line ['('], .leaf .identifier line target,
          .token line [')']], rest) := by
    rw [shape] at taken ⊢
    simp only [nameOrDefined, word, if_true, opened, start, inner_name, closed, taken]
  rw [primary, skip_solid blanks sentence.solid, ← read]
  rfl

theorem primary_takes_bracketed {before after : Text} (spaces : Gap before ∧ Gap after)
    (takes : Takes inner .or text node) :
    Takes (primary line inner) .primary ('(' :: before ++ text ++ after ++ [')']) node := by
  intro gap rest blanks ends
  have closing : Ends .or (after ++ ')' :: rest) :=
    ends_operator spaces.2 (by decide) (by decide) (by decide)
      (by simp [Level.operators, Text.after?])
  obtain ⟨left, read, behind⟩ := takes before _ spaces.1 closing
  have next : Text.skipSpaces left = ')' :: rest := by
    rw [behind.skip, skipSpaces_gap spaces.2 (by decide)]
  have opened : Text.skipSpaces (gap ++ ('(' :: before ++ text ++ after ++ [')']) ++ rest) =
      '(' :: (before ++ text ++ (after ++ ')' :: rest)) := by
    rw [List.append_assoc, Text.skipSpaces_append blanks]
    simp [Text.skipSpaces, Text.isSpace]
  refine ⟨rest, ?_, behind_self rest⟩
  simp only [primary, opened, read, next]

theorem Sentence.start (sentence : Sentence line .primary text node) : text.head? ≠ some '!' := by
  cases sentence with
  | name named =>
    intro first
    exact absurd (Text.isNameChar_of_mem named (List.mem_of_mem_head? first)) (by decide)
  | string | expansion | defined | bracketed => simp [expansionText]

/-- What is known of a sentence of a level. The loops are known by how far they have come. -/
def Understood (line : Nat) (level : Level) (text : Text) (node : Node) : Prop :=
  ∀ depth, text.length ≤ depth →
    match level with
    | .or => Reaches .or ['|', '|'] (readerOf line depth .and) line .and text node
    | .and => Reaches .and ['&', '&'] (readerOf line depth .eq) line .eq text node
    | other => Takes (readerOf line depth other) other text node

theorem Understood.takes (understood : Understood line level text node) {depth : Nat}
    (short : text.length ≤ depth) : Takes (readerOf line depth level) level text node := by
  cases level with
  | or =>
    have reached : Reaches .or ['|', '|'] (readerOf line depth .and) line .and text node :=
      understood depth short
    exact takes_of_reaches reached (by simp [Level.operators]) (by simp [Level.operators])
  | and =>
    have reached : Reaches .and ['&', '&'] (readerOf line depth .eq) line .eq text node :=
      understood depth short
    exact takes_of_reaches reached (by simp [Level.operators]) (by simp [Level.operators])
  | eq | not | primary => exact understood depth short

/-- The reader of a level takes every sentence of it, by induction on the sentence. -/
theorem Sentence.understood (sentence : Sentence line level text node) :
    Understood line level text node := by
  induction sentence with
  | name named => exact fun depth _ => primary_takes_name named
  | string plain _ => exact fun depth _ => primary_takes_string plain
  | expansion spaces content => exact fun depth _ => primary_takes_expansion spaces content
  | defined spaces named => exact fun depth _ => primary_takes_defined spaces named
  | bracketed spaces sentence ih =>
    intro depth short
    -- A pair of brackets is longer than what it holds, so one level of depth is left for that.
    simp only [List.length_append, List.length_cons, List.length_nil] at short
    obtain ⟨depth, rfl⟩ : ∃ n, depth = n + 1 := ⟨depth - 1, by omega⟩
    exact primary_takes_bracketed spaces (ih.takes (by omega))
  | ofPrimary sentence ih =>
    intro depth short
    exact negation_takes sentence.solid sentence.start (ih depth short)
  | negated spaces sentence ih =>
    intro depth short
    simp only [List.length_append, List.length_cons] at short
    exact negation_takes_mark spaces sentence.solid (ih depth (by omega))
  | ofNot sentence ih =>
    intro depth short
    exact comparison_takes sentence.solid (ih depth short)
  | equal spaces first second left right =>
    intro depth short
    simp only [joinedText, List.length_append] at short
    exact comparison_takes_equal (left depth (by omega)) (right depth (by omega))
      ⟨first.solid, second.solid⟩ spaces
  | ofEq sentence ih =>
    intro depth short
    exact reaches_of_takes sentence.solid (ih depth short)
  | both spaces first second left right =>
    intro depth short
    simp only [joinedText, List.length_append] at short
    refine (left depth (by omega)).turn (right depth (by omega)) ⟨first.solid, second.solid⟩ spaces
      (fun rest => ?_) (fun rest => rfl)
    rw [List.append_assoc]
    exact ends_operator spaces.1 (by decide) (by decide) (by decide)
      (by simp [Level.operators, Text.after?])
  | ofAnd sentence ih =>
    intro depth short
    exact reaches_of_takes sentence.solid (ih.takes short)
  | either spaces first second left right =>
    intro depth short
    simp only [joinedText, List.length_append] at short
    refine (left depth (by omega)).turn (right.takes (by omega)) ⟨first.solid, second.solid⟩ spaces
      (fun rest => ?_) (fun rest => rfl)
    rw [List.append_assoc]
    exact ends_operator spaces.1 (by decide) (by decide) (by decide)
      (by simp [Level.operators, Text.after?])

/-- A whole condition is read up to what ends it. -/
theorem condition_sentence {gap : Text} (sentence : Sentence line .or text node) (spaces : Gap gap)
    (ends : Ends .or rest) :
    ∃ left, condition line (gap ++ text ++ rest) = some (node, left) ∧ Behind rest left := by
  have short : text.length ≤ (gap ++ text ++ rest).length := by
    simp only [List.length_append]
    omega
  exact sentence.understood.takes short gap rest spaces ends

end BmakeZig.Source
