import BmakeZig.Proofs.Source.Cursor
import BmakeZig.Source.Rule

/-! The words of a line: names, directives, and the marks and operators with a spelling of their
own. -/
namespace BmakeZig.Source

theorem newline_not_mem_name {name : Text} (named : Text.isName name = true) : '\n' ∉ name :=
  fun member => absurd (Text.isNameChar_of_mem named member) (by decide)

theorem firm_name {name : Text} (named : Text.isName name = true) : Text.Firm name := by
  refine .of_solid ?_ fun c member => Text.isBlank_of_isNameChar (Text.isNameChar_of_mem named member)
  rintro rfl
  simp [Text.isName] at named

theorem name?_name {name : Text} (named : Text.isName name = true) :
    Text.name? name = some (name, []) := by
  have stops : ∀ c ∈ ([] : Text).head?, Text.isNameChar c = false := by simp
  simpa using Text.name?_append named stops

theorem isBlank_of_isModifier {c : Char} (modifier : isModifier c = true) :
    Text.isBlank c = false := by
  simp only [isModifier, Bool.or_eq_true, beq_iff_eq] at modifier
  rcases modifier with ((rfl | rfl) | rfl) | rfl <;> decide

/-- An operator is what the text starts with. -/
theorem eq_append_of_operator? {text rest : Text} {operator : Operator}
    (found : operator? text = some (operator, rest)) :
    text = operator.spelling ++ rest ∧ Text.Firm operator.spelling := by
  obtain ⟨other, member, taken⟩ := List.exists_of_findSome?_eq_some found
  obtain ⟨left, after, same⟩ := Option.map_eq_some_iff.1 taken
  obtain ⟨rfl, rfl⟩ := Prod.mk.inj same
  have each : ∀ operator ∈ operators, operator.spelling ≠ [] ∧
      ∀ c ∈ operator.spelling, Text.isBlank c = false := by
    simp [operators, Text.isBlank]
  obtain ⟨filled, solid⟩ := each other member
  exact ⟨Text.eq_append_of_after? after, .of_solid filled solid⟩

/-! Directives. -/

theorem newline_not_mem_spelling (directive : Directive) : '\n' ∉ directive.spelling := by
  cases directive <;> decide

theorem isName_word (directive : Directive) : Text.isName directive.word = true := by
  cases directive <;> decide

/-- A directive is found where its word is not gone on with. -/
theorem at?_spelling (directive : Directive) {rest : Text}
    (stops : ∀ c ∈ rest.head?, Text.isNameChar c = false) :
    Directive.at? (directive.spelling ++ rest) = some directive := by
  have found : Directive.ofWord? directive.word = some directive := by cases directive <;> decide
  rw [Directive.spelling, List.cons_append, Directive.at?,
    Text.name?_append (isName_word directive) stops]
  exact found

theorem eq_append_of_at? {text : Text} {directive : Directive}
    (named : Directive.at? text = some directive) :
    ∃ rest, text = directive.spelling ++ rest := by
  unfold Directive.at? at named
  split at named
  · next text =>
    obtain ⟨⟨word, rest⟩, found, known⟩ := Option.bind_eq_some_iff.1 named
    have spelled : directive.word = word := by simpa using List.find?_some known
    refine ⟨rest, ?_⟩
    rw [Text.name?_eq_append found, Directive.spelling, spelled, List.cons_append]
  · simp at named

theorem spelling_inj {left right : Directive} :
    left.spelling = right.spelling ↔ left = right := by
  refine ⟨fun same => ?_, fun same => congrArg _ same⟩
  have stops : ∀ c ∈ ([] : Text).head?, Text.isNameChar c = false := by simp
  have first := at?_spelling left stops
  rw [same, at?_spelling right stops] at first
  exact (Option.some.inj first).symm

theorem argument_spelling (directive : Directive) (rest : Text) :
    directive.argument (directive.spelling ++ rest) = rest :=
  List.drop_left

/-- The line goes on behind the directive's own word. -/
theorem here_directive {c : Cursor} {directive : Directive}
    (named : Directive.at? c.rest = some directive) :
    c.here = directive.spelling ++ directive.argument c.here := by
  obtain ⟨rest, unread⟩ := eq_append_of_at? named
  have plain : ∀ d ∈ directive.spelling, (d != '\n') = true :=
    List.all_eq_true.1 (by cases directive <;> decide)
  have here : c.here = directive.spelling ++ rest.takeWhile (· != '\n') := by
    rw [Cursor.here, unread, List.takeWhile_append_of_pos plain]
  rw [here, argument_spelling]

end BmakeZig.Source
