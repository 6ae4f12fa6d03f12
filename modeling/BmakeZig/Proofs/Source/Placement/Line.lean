import BmakeZig.Proofs.Source.Placement.Phrase

/-! Where the statements of one line stand. From here on a reader goes from one place in the source to
another: it covers the text of its node and leaves no more behind it than `MayLeave` says. -/
namespace BmakeZig.Source

variable {line : Nat} {text left : Text} {node : Node} {nodes : List Node}

/-- What a statement may leave unread between its text and the place where it stops. -/
def MayLeave (kind : Kind) (behind : Text) : Prop :=
  if kind = .conditional then '\n' ∉ behind
  else if kind = .error then behind = []
  else ∀ c ∈ behind, Text.isBlank c = true

/-- A statement read from one place to another is where its text is. -/
structure Passes (c : Cursor) (found : Node × Cursor) : Prop where
  sound : Sound found.1
  own : found.1.line = c.line
  filled : found.1.text ≠ []
  span : ∃ behind, c.Moves (found.1.text ++ behind) found.2 ∧ MayLeave found.1.kind behind

/-- A place where a statement starts. -/
structure Opens (c : Cursor) (first : Char) : Prop where
  solid : Text.isBlank first = false
  here : ∃ rest, c.here = first :: rest

variable {c : Cursor} {first : Char}

theorem passes_whole {kind : Kind} (opens : Opens c first) (plain : kind.isPlain = true)
    (laid : Laid c.line c.here nodes) :
    Passes c (.branch kind c.line c.here nodes, c.lineEnd) := by
  obtain ⟨rest, here⟩ := opens.here
  refine ⟨sound_branch plain laid, rfl, by simp [Node.branch, here], [], ?_, by simp [MayLeave]⟩
  simpa [Node.branch] using c.moves_lineEnd

/-- A statement that takes its line but for the blanks at the end. -/
theorem passes_trimmed {kind : Kind} (opens : Opens c first) (plain : kind.isPlain = true)
    (other : kind ≠ .conditional ∧ kind ≠ .error) (laid : Laid c.line (Text.trimEnd c.here) nodes) :
    Passes c (.branch kind c.line (Text.trimEnd c.here) nodes, c.lineEnd) := by
  obtain ⟨rest, here⟩ := opens.here
  obtain ⟨blanks, split, all, -⟩ := Text.trimEnd_split c.here
  refine ⟨sound_branch plain laid, rfl, ?_, blanks, ?_, ?_⟩
  · exact (Text.firm_trimEnd (by simp [here]) opens.solid).ne_nil
  · simpa [Node.branch, ← split] using c.moves_lineEnd
  · simpa [MayLeave, Node.branch, other] using all

theorem comment_passes (opens : Opens c first) : Passes c (comment c.line c.here, c.lineEnd) :=
  passes_trimmed opens (by decide) (by decide) .done

theorem errorLine_passes (opens : Opens c first) : Passes c (errorLine c) :=
  passes_whole opens (by decide) .done

/-- A phrase behind spaces takes what is left of a line. -/
theorem laid_phrase {kind : Kind} (isPhrase : kind.isPhrase = true) (single : '\n' ∉ text) :
    Laid line text [phrase kind line (Text.skipSpaces text)] := by
  obtain ⟨gap, spaces⟩ := skipSpaces_split text
  obtain ⟨blanks, split, -, -⟩ := Text.trimEnd_split (Text.skipSpaces text)
  have shape : text = gap ++ ((phrase kind line (Text.skipSpaces text)).text ++ blanks) := by
    rw [phrase_text, ← split, ← spaces]
  have sound : Sound (phrase kind line (Text.skipSpaces text)) :=
    sound_phrase isPhrase (not_mem_skipSpaces single)
  have front : '\n' ∉ gap ++ (phrase kind line (Text.skipSpaces text)).text := by
    rw [shape, ← List.append_assoc, List.mem_append, not_or] at single
    exact single.1
  have laid := Laid.word sound (phrase_line kind line _) front (.done : Laid line blanks [])
  rwa [← shape] at laid

theorem phrase_ending (kind : Kind) (line : Nat) (text : Text) :
    (phrase kind line text).text = [] ∨ Text.Firm (phrase kind line text).text := by
  obtain ⟨blanks, -, -, kept⟩ := Text.trimEnd_split text
  exact kept

theorem laid_directive {directive : Directive} (named : Directive.at? c.rest = some directive)
    (laid : Laid c.line (directive.argument c.here) nodes) :
    Laid c.line c.here (.token c.line directive.spelling :: nodes) := by
  have split := here_directive named
  have single := c.newline_not_mem_here
  rw [split, List.mem_append, not_or] at single
  have first := Laid.first (sound_token c.line directive.spelling) rfl single.1 laid
  rwa [Node.token, ← split] at first

theorem argument_single (directive : Directive) (c : Cursor) : '\n' ∉ directive.argument c.here :=
  fun member => c.newline_not_mem_here (List.mem_of_mem_drop member)

theorem diagnostic_passes {directive : Directive} (opens : Opens c first)
    (named : Directive.at? c.rest = some directive) :
    Passes c (diagnostic directive c.line c.here, c.lineEnd) :=
  passes_whole opens (by decide)
    (laid_directive named (laid_phrase (by decide) (argument_single directive c)))

theorem pathDirective_passes {kind : Kind} {directive : Directive} (opens : Opens c first)
    (plain : kind.isPlain = true) (named : Directive.at? c.rest = some directive)
    (read : pathDirective kind directive c.line c.here = some node) :
    Passes c (node, c.lineEnd) := by
  simp only [pathDirective] at read
  split at read
  · simp at read
  · obtain rfl := Option.some.inj read
    exact passes_whole opens plain
      (laid_directive named (laid_phrase (by decide) (argument_single directive c)))

theorem undef_passes (named : Directive.at? c.rest = some .undef)
    (read : undef c.line c.here = some (node, left)) : Passes c (node, c.within left) := by
  simp only [undef] at read
  split at read
  · simp at read
  · next name rest found =>
    split at read
    · next ended =>
      obtain ⟨rfl, rfl⟩ := Prod.mk.inj (Option.some.inj read)
      obtain ⟨gap, spaces⟩ := skipSpaces_split (Directive.undef.argument c.here)
      have shape : c.here = (Directive.undef.spelling ++ (gap ++ name)) ++ rest := by
        rw [here_directive named, spaces, Text.name?_eq_append found]
        simp
      have single := c.newline_not_mem_here
      rw [shape] at single
      simp only [List.mem_append, not_or] at single
      have ending : rest = rest.takeWhile Text.isSpace ++ Text.skipSpaces rest :=
        List.takeWhile_append_dropWhile.symm
      rw [shape, Text.consumed_append]
      refine ⟨sound_branch rfl ?_, rfl, ?_, rest.takeWhile Text.isSpace, ?_, ?_⟩
      · exact .first (sound_token c.line _) rfl single.1.1
          (.last (sound_identifier c.line name) rfl (by simp [Node.leaf, single]))
      · simp [Node.branch, Directive.spelling]
      · refine Cursor.moves_within ?_
        rw [shape, Node.branch, List.append_assoc _ _ (Text.skipSpaces rest), ← ending]
      · intro d member
        exact Text.isBlank_of_isSpace (List.mem_takeWhile_imp member)
    · simp at read

theorem assignment_passes (opens : Opens c first) (read : assignment c.line c.here = some node) :
    Passes c (node, c.lineEnd) := by
  simp only [assignment] at read
  split at read
  · simp at read
  · next name after found =>
    obtain ⟨⟨operator, rest⟩, taken, same⟩ := Option.map_eq_some_iff.1 read
    obtain rfl := same
    obtain ⟨gap, spaces⟩ := skipSpaces_split after
    obtain ⟨next, solid⟩ := eq_append_of_operator? taken
    have shape : c.here = name ++ (gap ++ (operator.spelling ++ rest)) := by
      rw [Text.name?_eq_append found, spaces, next]
    have single := c.newline_not_mem_here
    have laid : Laid c.line c.here ([.leaf .identifier c.line name,
        .token c.line operator.spelling] ++ [phrase .value c.line (Text.skipSpaces rest)]) := by
      rw [shape] at single ⊢
      simp only [List.mem_append, not_or] at single
      refine laid_name single.1 (.word (sound_token c.line _) rfl (by simp [Node.token, single]) ?_)
      exact laid_phrase (by decide) single.2.2.2
    have value : '\n' ∉ Text.skipSpaces rest := not_mem_skipSpaces fun member =>
      single (by simp [shape, member])
    refine passes_trimmed opens (by simp [Kind.isPlain, Kind.listsStatements, Kind.isPhrase]) (by simp)
      (laid.trimLine single ?_ (sound_phrase (by decide) value) rfl (phrase_ending ..))
    intro child member
    simp only [List.mem_cons, List.not_mem_nil, or_false] at member
    rcases member with rfl | rfl
    · exact firm_name (Text.isName_of_name? found)
    · exact solid

end BmakeZig.Source
