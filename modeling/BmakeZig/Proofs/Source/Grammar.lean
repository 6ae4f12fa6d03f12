import BmakeZig.Proofs.Source.Condition
import BmakeZig.Proofs.Source.Shape

/-! Nothing but the grammar of conditions is understood. A reader of a level takes from a line some
spaces and a sentence of that level, with the tree of the sentence; since every sentence is understood,
the conditions of a line are exactly the sentences it holds. -/
namespace BmakeZig.Source

variable {line : Nat} {text left : Text} {node : Node} {nodes : List Node}

/-- A name is read as far as it goes. -/
theorem stops_of_name? {name : Text} (found : Text.name? text = some (name, left)) :
    ∀ c ∈ left.head?, Text.isNameChar c = false := by
  cases text with
  | nil => cases found
  | cons d text =>
    rw [Text.name?] at found
    split at found
    · obtain ⟨-, rfl⟩ := Prod.mk.inj (Option.some.inj found)
      intro c first
      have stopped := List.head?_dropWhile_not Text.isNameChar text
      rw [Option.mem_def.1 first] at stopped
      simpa using stopped
    · cases found

/-! Expansions. -/

theorem listing_of_names (read : names line text = some (nodes, left)) :
    ∃ listed, text = listed ++ left ∧ Listing line listed nodes := by
  fun_induction names line text generalizing nodes left with
  | case1 => cases read
  | case2 text name after found rest next _ ih =>
    obtain ⟨⟨inner, last⟩, again, same⟩ := Option.map_eq_some_iff.1 read
    obtain ⟨rfl, rfl⟩ := Prod.mk.inj same
    obtain ⟨listed, whole, listing⟩ := ih again
    obtain ⟨before, spaces, behind⟩ := behind_skip after
    obtain ⟨gap, spacesAfter, ahead⟩ := behind_skip rest
    refine ⟨_, ?_, .more (Text.isName_of_name? found) spaces spacesAfter listing⟩
    rw [Text.name?_eq_append found, behind, next, ahead, whole]
    simp
  | case3 text name after found =>
    obtain ⟨rfl, rfl⟩ := Prod.mk.inj (Option.some.inj read)
    obtain ⟨gap, spaces, behind⟩ := behind_skip after
    refine ⟨name ++ gap, ?_, .last (Text.isName_of_name? found) spaces⟩
    rw [Text.name?_eq_append found, List.append_assoc, ← behind]

theorem Listing.head (listed : Listing line text nodes) :
    ∃ c ∈ text.head?, Text.isNameChar c = true := by
  have first {name : Text} (named : Text.isName name = true) (rest : Text) :
      ∃ c ∈ (name ++ rest).head?, Text.isNameChar c = true := by
    obtain ⟨c, others, rfl⟩ := List.exists_cons_of_ne_nil (Solid.ofName named).filled
    exact ⟨c, rfl, Text.isNameChar_of_mem named List.mem_cons_self⟩
  cases listed with
  | last named => exact first named _
  | @more name before after text nodes named =>
    rw [List.append_assoc, List.append_assoc]
    exact first named _

theorem content_of_oneName {mode : Mode} (read : oneName line text = some (nodes, left)) :
    ∃ content, text = content ++ left ∧ Content line mode content nodes := by
  obtain ⟨⟨name, after⟩, found, same⟩ := Option.map_eq_some_iff.1 read
  obtain ⟨rfl, rfl⟩ := Prod.mk.inj same
  obtain ⟨gap, spaces, behind⟩ := behind_skip after
  refine ⟨name ++ gap, ?_, .name (Text.isName_of_name? found) spaces⟩
  rw [Text.name?_eq_append found, List.append_assoc, ← behind]

theorem content_of_expansionContent {mode : Mode}
    (read : expansionContent line mode text = some (nodes, left)) :
    ∃ content, text = content ++ left ∧ Content line mode content nodes := by
  unfold expansionContent at read
  split at read
  · next after =>
    obtain ⟨⟨modifier, behind⟩, found, more⟩ := Option.bind_eq_some_iff.1 read
    obtain ⟨⟨inner, last⟩, taken, same⟩ := Option.map_eq_some_iff.1 more
    obtain ⟨rfl, rfl⟩ := Prod.mk.inj same
    obtain ⟨listed, rest, listing⟩ := listing_of_names taken
    obtain ⟨gap, spaces, ahead⟩ := behind_skip behind
    rw [rest] at ahead
    -- The modifier has taken all that reads on as a name, so the first listed name stands apart.
    have filled : gap ≠ [] := by
      rintro rfl
      obtain ⟨c, first, named⟩ := listing.head
      have other := stops_of_name? found c (by
        rw [ahead, List.nil_append, List.head?_append, Option.mem_def.1 first]
        rfl)
      simp [named] at other
    refine ⟨_, ?_, .modified (Text.isName_of_name? found) spaces filled listing⟩
    rw [Text.name?_eq_append found, ahead]
    simp
  · exact content_of_oneName read

theorem content_of_expansion (read : expansion line text = some (node, left)) :
    ∃ mode gap content nodes, text = expansionText mode gap content ++ left ∧ Gap gap ∧
      Content line mode content nodes ∧
      node = expansionNode line mode (expansionText mode gap content) nodes := by
  unfold expansion at read
  split at read
  · next c inside =>
    split at read
    · cases read
    · next mode opened =>
      obtain rfl := Mode.opening_of_ofOpening? opened
      split at read
      · next nodes closing rest inner =>
        split at read
        · next closes =>
          obtain ⟨rfl, rfl⟩ := Prod.mk.inj (Option.some.inj read)
          subst closes
          obtain ⟨content, whole, spelled⟩ := content_of_expansionContent inner
          obtain ⟨gap, spaces, ahead⟩ := behind_skip inside
          have shape : '$' :: mode.opening :: inside = expansionText mode gap content ++ rest := by
            rw [ahead, whole]
            simp [expansionText]
          refine ⟨mode, gap, content, nodes, shape, spaces, spelled, ?_⟩
          rw [shape, Text.consumed_append]
          rfl
        · cases read
      · cases read
  · cases read

/-! Levels. -/

/-- What was read of the text is a sentence of the level behind spaces, up to spaces. -/
def Spells (line : Nat) (level : Level) (text : Text) (node : Node) (left : Text) : Prop :=
  ∃ gap sentence rest, text = gap ++ sentence ++ rest ∧ Gap gap ∧
    Sentence line level sentence node ∧ Behind rest left

/-- Whatever the reader accepts on one line is a sentence of the level. -/
def Recognizes (line : Nat) (reader : Reader) (level : Level) : Prop :=
  ∀ {text left : Text} {node : Node}, '\n' ∉ text → reader text = some (node, left) →
    Spells line level text node left

namespace Spells

variable {level : Level}

/-- Behind the spaces it starts with, the text starts with the sentence. -/
theorem start (spells : Spells line level text node left) :
    ∃ sentence rest, Text.skipSpaces text = sentence ++ rest ∧ Sentence line level sentence node ∧
      Behind rest left := by
  obtain ⟨gap, sentence, rest, rfl, spaces, spelled, behind⟩ := spells
  exact ⟨sentence, rest, skip_solid spaces spelled.solid rest, spelled, behind⟩

theorem of_start {sentence rest : Text} (whole : Text.skipSpaces text = sentence ++ rest)
    (spelled : Sentence line level sentence node) (behind : Behind rest left) :
    Spells line level text node left := by
  obtain ⟨gap, spaces, ahead⟩ := behind_skip text
  refine ⟨gap, sentence, rest, ?_, spaces, spelled, behind⟩
  rw [ahead, whole, List.append_assoc]

end Spells

theorem skipSpaces_skipSpaces (text : Text) :
    Text.skipSpaces (Text.skipSpaces text) = Text.skipSpaces text :=
  (behind_skip text).skip

theorem newline_not_mem_skipSpaces (single : '\n' ∉ text) : '\n' ∉ Text.skipSpaces text :=
  fun member => single (Text.mem_of_mem_skipSpaces member)

theorem newline_not_mem_behind {rest operator behind : Text} (single : '\n' ∉ rest)
    (next : Text.skipSpaces rest = operator ++ behind) : '\n' ∉ behind := by
  have skipped := newline_not_mem_skipSpaces single
  rw [next] at skipped
  exact fun member => skipped (List.mem_append_right _ member)

/-- An operand, an operator and another operand that were read one behind the other. -/
theorem joined_whole {leftText rest after operator behind : Text} {right : Node} {level : Level}
    (trailing : Behind rest after) (next : Text.skipSpaces after = operator ++ behind)
    (second : Spells line level behind right left) :
    ∃ before gap rightText rest', leftText ++ rest =
        joinedText leftText before operator gap rightText ++ rest' ∧
      (Gap before ∧ Gap gap) ∧ Sentence line level rightText right ∧ Behind rest' left := by
  obtain ⟨before, spaces, ahead⟩ := behind_skip rest
  obtain ⟨gap, rightText, rest', whole, spacesAfter, spelled, trailing'⟩ := second
  refine ⟨before, gap, rightText, rest', ?_, ⟨spaces, spacesAfter⟩, spelled, trailing'⟩
  rw [ahead, ← trailing.skip, next, whole]
  simp [joinedText]

section

variable {kind : Kind} {operator : Text} {operand : Reader} {level looser : Level}

/-- The loop over an operator, by induction on the turns that are left: what it has read so far is a
sentence, which every turn makes longer. -/
theorem operands_spell
    (build : ∀ {before after leftText rightText : Text} {left right : Node}, Gap before ∧ Gap after →
      Sentence line looser leftText left → Sentence line level rightText right →
        Sentence line looser (joinedText leftText before operator after rightText)
          (joinedNode kind line (joinedText leftText before operator after rightText) operator left
            right))
    (reads : Recognizes line operand level) {limit : Nat} {leftText rest after : Text} {first : Node}
    (single : '\n' ∉ leftText ++ rest) (spelled : Sentence line looser leftText first)
    (behind : Behind rest after)
    (read : operands line kind operator operand (leftText ++ rest) limit first after =
      some (node, left)) :
    ∃ sentence rest', leftText ++ rest = sentence ++ rest' ∧ Sentence line looser sentence node ∧
      Behind rest' left := by
  induction limit generalizing leftText rest after first with
  | zero =>
    obtain ⟨rfl, rfl⟩ := Prod.mk.inj (Option.some.inj read)
    exact ⟨leftText, rest, rfl, spelled, behind⟩
  | succ limit ih =>
    simp only [operands] at read
    split at read
    · obtain ⟨rfl, rfl⟩ := Prod.mk.inj (Option.some.inj read)
      exact ⟨leftText, rest, rfl, spelled, behind.trans (behind_skip after)⟩
    · next further found =>
      have next := Text.eq_append_of_after? found
      split at read
      · cases read
      · next right last taken =>
        have inside : '\n' ∉ further := newline_not_mem_behind
          (fun member => single (List.mem_append_right _ member)) (behind.skip ▸ next)
        obtain ⟨before, gap, rightText, rest', whole, spaces, spelled', behind'⟩ :=
          joined_whole behind next (reads inside taken)
        have longer := build spaces spelled spelled'
        rw [whole] at read single ⊢
        rw [behind'.span longer.solid] at read
        exact ih single longer behind' read

theorem joined_recognizes
    (build : ∀ {before after leftText rightText : Text} {left right : Node}, Gap before ∧ Gap after →
      Sentence line looser leftText left → Sentence line level rightText right →
        Sentence line looser (joinedText leftText before operator after rightText)
          (joinedNode kind line (joinedText leftText before operator after rightText) operator left
            right))
    (single : ∀ {text node}, Sentence line level text node → Sentence line looser text node)
    (reads : Recognizes line operand level) :
    Recognizes line (joined line kind operator operand) looser := by
  intro text left node oneLine read
  simp only [joined] at read
  split at read
  · cases read
  · next first after taken =>
    have skipped := newline_not_mem_skipSpaces oneLine
    obtain ⟨sentence, rest, whole, spelled, behind⟩ := (reads skipped taken).start
    rw [skipSpaces_skipSpaces] at whole
    rw [whole] at read skipped
    obtain ⟨longer, rest', same, spelled', behind'⟩ :=
      operands_spell build reads skipped (single spelled) behind read
    exact .of_start (whole.trans same) spelled' behind'

theorem comparison_recognizes (reads : Recognizes line operand .not) :
    Recognizes line (comparison line operand) .eq := by
  intro text left node oneLine read
  simp only [comparison] at read
  split at read
  · cases read
  · next first after taken =>
    have skipped := newline_not_mem_skipSpaces oneLine
    obtain ⟨sentence, rest, whole, spelled, behind⟩ := (reads skipped taken).start
    rw [skipSpaces_skipSpaces] at whole
    split at read
    · obtain ⟨rfl, rfl⟩ := Prod.mk.inj (Option.some.inj read)
      exact .of_start whole (.ofNot spelled) (behind.trans (behind_skip after))
    · next further found =>
      obtain ⟨⟨right, last⟩, second, same⟩ := Option.map_eq_some_iff.1 read
      obtain ⟨rfl, rfl⟩ := Prod.mk.inj same
      have next := Text.eq_append_of_after? found
      rw [whole] at skipped
      have inside : '\n' ∉ further := newline_not_mem_behind
        (fun member => skipped (List.mem_append_right _ member)) (behind.skip ▸ next)
      obtain ⟨before, gap, rightText, rest', joins, spaces, spelled', behind'⟩ :=
        joined_whole behind next (reads inside second)
      have equal := Sentence.equal spaces spelled spelled'
      rw [whole, joins, behind'.span equal.solid]
      exact .of_start (whole.trans joins) equal behind'

theorem negation_recognizes (reads : Recognizes line operand .primary) :
    Recognizes line (negation line operand) .not := by
  intro text left node oneLine read
  fun_induction negation line operand text generalizing node left with
  | case1 text behind next _ ih =>
    obtain ⟨⟨inner, last⟩, taken, same⟩ := Option.map_eq_some_iff.1 read
    obtain ⟨rfl, rfl⟩ := Prod.mk.inj same
    have inside : '\n' ∉ behind := @newline_not_mem_behind text ['!'] behind oneLine next
    obtain ⟨gap, sentence, rest, whole, spaces, spelled, trailing⟩ := ih inside taken
    have negated := Sentence.negated spaces spelled
    have shape : '!' :: behind = '!' :: gap ++ sentence ++ rest := by simp [whole]
    rw [shape, trailing.span negated.solid]
    exact .of_start (next.trans shape) negated trailing
  | case2 text =>
    obtain ⟨sentence, rest, whole, spelled, behind⟩ :=
      (reads (newline_not_mem_skipSpaces oneLine) read).start
    rw [skipSpaces_skipSpaces] at whole
    exact .of_start whole (.ofPrimary spelled) behind

end

/-! Primaries. -/

theorem nameOrDefined_spell (read : nameOrDefined line text = some (node, left)) :
    ∃ sentence rest, text = sentence ++ rest ∧ Sentence line .primary sentence node ∧
      Behind rest left := by
  simp only [nameOrDefined] at read
  split at read
  · cases read
  · next name after found =>
    have whole := Text.name?_eq_append found
    have word : Sentence line .primary name (.leaf .identifier line name) :=
      .name (Text.isName_of_name? found)
    split at read
    · next keyword =>
      split at read
      · next inside opened =>
        split at read
        · cases read
        · next target ahead named =>
          split at read
          · next rest closed =>
            obtain ⟨rfl, rfl⟩ := Prod.mk.inj (Option.some.inj read)
            obtain ⟨before, spaces, front⟩ := behind_skip after
            obtain ⟨gap, spacesInside, middle⟩ := behind_skip inside
            obtain ⟨trail, spacesAfter, back⟩ := behind_skip ahead
            have shape : text =
                "defined".toList ++ before ++ '(' :: gap ++ target ++ trail ++ [')'] ++ rest := by
              rw [whole, keyword, front, opened, middle, Text.name?_eq_append named, back, closed]
              simp
            refine ⟨_, rest, shape, ?_, behind_self rest⟩
            rw [shape, Text.consumed_append, keyword]
            exact .defined ⟨spaces, spacesInside, spacesAfter⟩ (Text.isName_of_name? named)
          · cases read
      · obtain ⟨rfl, rfl⟩ := Prod.mk.inj (Option.some.inj read)
        exact ⟨name, after, whole, word, behind_skip after⟩
    · obtain ⟨rfl, rfl⟩ := Prod.mk.inj (Option.some.inj read)
      exact ⟨name, after, whole, word, behind_self after⟩

theorem primary_recognizes {inner : Reader} (reads : Recognizes line inner .or) :
    Recognizes line (primary line inner) .primary := by
  intro text left node oneLine read
  have skipped := newline_not_mem_skipSpaces oneLine
  simp only [primary] at read
  split at read
  · next inside opened =>
    rw [opened] at skipped
    split at read
    · cases read
    · next found after taken =>
      split at read
      · next rest closed =>
        obtain ⟨rfl, rfl⟩ := Prod.mk.inj (Option.some.inj read)
        have deeper : '\n' ∉ inside := fun member => skipped (List.mem_cons_of_mem _ member)
        obtain ⟨before, sentence, back, whole, spaces, spelled, behind⟩ := reads deeper taken
        obtain ⟨gap, spacesAfter, ahead⟩ := behind_skip back
        rw [← behind.skip, closed] at ahead
        have enclosed : Text.skipSpaces text = '(' :: before ++ sentence ++ gap ++ [')'] ++ rest := by
          rw [opened, whole, ahead]
          simp
        exact .of_start enclosed (.bracketed ⟨spaces, spacesAfter⟩ spelled) (behind_self rest)
      · cases read
  · next inside opened =>
    obtain ⟨⟨quoted, rest⟩, cut, same⟩ := Option.map_eq_some_iff.1 read
    obtain ⟨rfl, rfl⟩ := Prod.mk.inj same
    have whole := Text.eq_append_of_cutAt? cut
    rw [opened, whole] at skipped
    have single : '\n' ∉ quoted := fun member => skipped (by simp [member])
    have enclosed : Text.skipSpaces text = '"' :: quoted ++ ['"'] ++ rest := by
      rw [opened, whole]
      simp
    exact .of_start enclosed (.string (Text.not_mem_of_cutAt? cut) single) (behind_self rest)
  · next inside opened =>
    obtain ⟨mode, gap, content, nodes, whole, spaces, spelled, rfl⟩ := content_of_expansion read
    exact .of_start (opened.trans whole) (.expansion spaces spelled) (behind_self left)
  · obtain ⟨sentence, rest, whole, spelled, behind⟩ := nameOrDefined_spell read
    exact .of_start whole spelled behind

/-- By induction on the depth of brackets. -/
theorem conditionWithin_recognizes (depth : Nat) :
    Recognizes line (conditionWithin line depth) .or := by
  induction depth with
  | zero =>
    intro text left node _ read
    cases read
  | succ depth ih =>
    exact joined_recognizes .either .ofAnd <| joined_recognizes .both .ofEq <|
      comparison_recognizes (negation_recognizes (primary_recognizes ih))

theorem condition_recognizes : Recognizes line (condition line) .or :=
  fun oneLine read => conditionWithin_recognizes _ oneLine read

/-! Lines. -/

/-- What may stand behind a condition on its line: spaces, and a comment. -/
def Trailing (text : Text) : Prop :=
  ∃ gap remark, text = gap ++ remark ∧ Gap gap ∧ (remark = [] ∨ ∃ words, remark = '#' :: words)

theorem atLineEnd_iff : atLineEnd text = true ↔ Trailing text := by
  constructor
  · intro ended
    obtain ⟨gap, spaces, ahead⟩ := behind_skip text
    refine ⟨gap, _, ahead, spaces, ?_⟩
    unfold atLineEnd at ended
    split at ended
    · next nothing => exact .inl nothing
    · next c words next =>
      obtain rfl : c = '#' := by simpa using ended
      exact .inr ⟨words, next⟩
  · rintro ⟨gap, remark, rfl, spaces, rfl | ⟨words, rfl⟩⟩
    · rw [atLineEnd, Text.skipSpaces_append spaces]
      rfl
    · rw [atLineEnd, skipSpaces_gap spaces (by decide)]
      rfl

/-- A sentence ends where nothing but a comment follows. -/
theorem Trailing.ends (trailing : Trailing text) (level : Level) : Ends level text := by
  obtain ⟨gap, remark, rfl, spaces, rfl | ⟨words, rfl⟩⟩ := trailing
  · have skipped : Text.skipSpaces (gap ++ []) = Text.skipSpaces [] := Text.skipSpaces_append spaces []
    have finished := ends_nil level
    refine ⟨fun c first => ?_, ?_, fun own member => ?_⟩
    · rw [List.append_nil] at first
      exact Text.isNameChar_of_isSpace (spaces c (List.mem_of_mem_head? first))
    · rw [skipped]
      exact finished.bracket
    · rw [Next, skipped]
      exact finished.operator own member
  · have other : ∀ own ∈ level.operators, Text.after? own ('#' :: words) = none := by
      cases level <;> simp [Level.operators, Text.after?]
    exact ends_operator spaces (by decide) (by decide) (by decide) other

/-- The reader accepts a line exactly where it is a sentence of the grammar, with spaces around it and at
most a comment behind it, and the tree is that of the sentence. -/
theorem condition_iff_sentence (oneLine : '\n' ∉ text) :
    (∃ left, condition line text = some (node, left) ∧ atLineEnd left = true) ↔
      ∃ lead sentence trail, text = lead ++ sentence ++ trail ∧ Gap lead ∧
        Sentence line .or sentence node ∧ Trailing trail := by
  constructor
  · rintro ⟨left, read, ended⟩
    obtain ⟨lead, sentence, rest, whole, spaces, spelled, behind⟩ := condition_recognizes oneLine read
    refine ⟨lead, sentence, rest, whole, spaces, spelled, atLineEnd_iff.1 ?_⟩
    rwa [atLineEnd, ← behind.skip]
  · rintro ⟨lead, sentence, trail, rfl, spaces, spelled, trailing⟩
    obtain ⟨left, read, behind⟩ := condition_sentence spelled spaces (trailing.ends .or)
    refine ⟨left, read, ?_⟩
    rw [atLineEnd, behind.skip]
    exact atLineEnd_iff.2 trailing

/-- A negated group next to a word that is a name here, with a hash sign in quotes and one that is not. -/
def guardLine : Text :=
  " !( A || \"#\" ) == defined # on".toList

def guardTree : Node :=
  joinedNode .eq 1 "!( A || \"#\" ) == defined".toList ['=', '=']
    (.branch .not 1 "!( A || \"#\" )".toList [.token 1 ['!'],
      joinedNode .or 1 "A || \"#\"".toList ['|', '|'] (.leaf .identifier 1 ['A'])
        (.leaf .string 1 "\"#\"".toList)])
    (.leaf .identifier 1 "defined".toList)

theorem guardLine_accepted : '\n' ∉ guardLine ∧
    ∃ left, condition 1 guardLine = some (guardTree, left) ∧ atLineEnd left = true := by
  have oneLine : '\n' ∉ guardLine := by decide
  have blank : Gap [' '] := by simp [Gap, Text.isSpace]
  have none : Gap [] := by simp [Gap]
  have name : Sentence 1 .primary ['A'] _ := .name (by decide)
  have quoted : Sentence 1 .primary ('"' :: ['#'] ++ ['"']) _ := .string (by decide) (by decide)
  have word : Sentence 1 .primary "defined".toList _ := .name (by decide)
  have group : Sentence 1 .or _ _ :=
    .either ⟨blank, blank⟩ (name.loosen (by decide)) (quoted.loosen (by decide))
  have negated := Sentence.negated none (.ofPrimary (.bracketed ⟨blank, blank⟩ group))
  have whole : Sentence 1 .eq "!( A || \"#\" ) == defined".toList guardTree :=
    .equal ⟨blank, blank⟩ negated (.ofPrimary word)
  refine ⟨oneLine, (condition_iff_sentence oneLine).2 ?_⟩
  exact ⟨[' '], _, " # on".toList, by decide, blank, .ofAnd (.ofEq whole),
    [' '], "# on".toList, by decide, blank, .inr ⟨_, rfl⟩⟩

/-- A sentence has one tree only. -/
theorem Sentence.tree_unique {text : Text} {node other : Node} (first : Sentence line .or text node)
    (second : Sentence line .or text other) : node = other := by
  have spaces : Gap [] := by simp [Gap]
  obtain ⟨left, read, -⟩ := condition_sentence first spaces (ends_nil .or)
  obtain ⟨left', read', -⟩ := condition_sentence second spaces (ends_nil .or)
  rw [read] at read'
  exact congrArg Prod.fst (Option.some.inj read')

end BmakeZig.Source
