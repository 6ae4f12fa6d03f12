import BmakeZig.Proofs.Source.Echo.Condition
import BmakeZig.Proofs.Source.Words
import BmakeZig.Source.Block

/-! Statements of one line, read on a line further down and with spaces at its end. Only those whose span
is the whole line keep the spaces; in all others nothing but the lines of the nodes changes. -/
namespace BmakeZig.Source

variable {tail text other : Text} (line count : Nat)

section

variable (spaces : ∀ c ∈ tail, Text.isSpace c = true)

include spaces

theorem comment_trails (trails : Text.Trails tail text other) :
    comment (line + count) other = (comment line text).shift count := by
  rw [comment, comment, trails.trimEnd spaces, Node.shift_leaf]

theorem operator?_trails (trails : Text.Trails tail text other) :
    operator? other = (operator? text).map fun found => (found.1, found.2 ++ tail) := by
  have solid : ∀ operator ∈ operators, operator.spelling ≠ [] ∧
      ∀ c ∈ operator.spelling, Text.isSpace c = false := by
    simp [operators, Text.isSpace]
  unfold operator?
  generalize operators = all at solid ⊢
  induction all with
  | nil => rfl
  | cons operator rest ih =>
    obtain ⟨⟨filled, plain⟩, others⟩ := List.forall_mem_cons.1 solid
    rw [List.findSome?_cons, List.findSome?_cons, trails.after? spaces filled plain]
    cases Text.after? operator.spelling text with
    | none => exact ih others
    | some behind => rfl

theorem assignment_trails (text : Text) :
    assignment (line + count) (text ++ tail) = (assignment line text).map (Node.shift count) := by
  have whole := Text.trails_append tail text
  simp only [assignment, whole.name? spaces]
  cases named : Text.name? text with
  | none => rfl
  | some found =>
    have behind := (Text.trails_append tail found.2).skipSpaces spaces
    simp only [Option.map_some, operator?_trails spaces behind]
    cases operator? (Text.skipSpaces found.2) with
    | none => rfl
    | some taken =>
      have value := (Text.trails_append tail taken.2).skipSpaces spaces
      simp [whole.trimEnd spaces, phrase_trails spaces value]

theorem target?_echo (text : Text) :
    Echo (Node.shift count) tail text.length (target? line text)
      (target? (line + count) (text ++ tail)) := by
  have whole := Text.trails_append tail text
  have solid : ∀ c ∈ alwaysTarget, Text.isSpace c = false := by
    have none : alwaysTarget.any Text.isSpace = false := by decide
    simpa using none
  simp only [target?, whole.after? spaces (by decide : alwaysTarget ≠ []) solid]
  cases found : Text.after? alwaysTarget text with
  | some left =>
    have length := Text.length_of_after? found
    exact .some (Text.trails_append tail left) (by omega)
  | none =>
    simp only [Option.map_none]
    rcases head_split spaces '.' (by decide) whole with ⟨rest, rfl, -⟩ | ⟨plain, plain'⟩
    · have cuts := Text.cutAt?_append_spaces spaces (by decide : Text.isSpace ':' = false) ('.' :: rest)
      simp only [List.cons_append] at cuts ⊢
      rw [cuts]
      cases cut : Text.cutAt? ':' ('.' :: rest) with
      | none => exact .none
      | some parts =>
        simp only [Option.map_some]
        split
        · exact .none
        · have kept := (Text.trimEnd_isPrefix parts.1).length_le
          have before : parts.1.length ≤ ('.' :: rest).length := by
            rw [Text.eq_append_of_cutAt? cut, List.length_append]
            omega
          -- The target ends in front of the colon, so the spaces are all in what is left.
          have left : ('.' :: (rest ++ tail)).drop (Text.trimEnd parts.1).length =
              ('.' :: rest).drop (Text.trimEnd parts.1).length ++ tail := by
            rw [← List.cons_append, List.drop_append_of_le_length (by omega)]
          rw [left]
          refine .some (Text.trails_append tail _) ?_
          rw [List.length_drop]
          omega
    · simp only []
      exact .none

theorem ruleHeader_trails (text : Text) :
    ruleHeader (line + count) (text ++ tail) =
      (ruleHeader line text).map (List.map (Node.shift count)) := by
  unfold ruleHeader
  rcases (target?_echo line count spaces text).split with ⟨none, none'⟩ |
    ⟨target, left, left', some, some', behind, -⟩
  · simp only [none, none', Option.map_none]
  · simp only [some, some']
    rcases mark_split spaces ':' (by decide) behind with ⟨after, next, next'⟩ | ⟨plain, plain'⟩
    · simp only [next, next', atLineEnd_trails spaces (Text.trails_append tail after)]
      split <;> simp
    · simp only [Option.map_none]

/-- The built-in command of a line, if it names one, with what is left of the line. -/
theorem builtin?_trails (trails : Text.Trails tail text other) :
    builtin? other = (builtin? text).map fun found => (found.1, found.2 ++ tail) := by
  rcases head_split spaces '~' (by decide) trails with ⟨rest, rfl, rfl⟩ | ⟨plain, plain'⟩
  · rw [builtin?, builtin?, (Text.trails_append tail rest).name? spaces]
    cases Text.name? rest <;> rfl
  · simp only [builtin?, Option.map_none]

theorem command_trails (trails : Text.Trails tail text other) :
    command (line + count) other = (command line text).shift count := by
  have stops : ∀ c, Text.isSpace c = true → isModifier c = false := by
    intro c space
    rcases Text.isSpace_cases space with rfl | rfl | rfl <;> decide
  have marks : other.takeWhile isModifier = text.takeWhile isModifier := by
    rcases trails with rfl | ⟨rfl, rfl⟩
    · exact Text.takeWhile_append_spaces spaces stops text
    · rfl
  have behind : Text.Trails tail (text.dropWhile isModifier) (other.dropWhile isModifier) := by
    rcases trails with rfl | ⟨rfl, rfl⟩
    · exact .inl (Text.dropWhile_append_spaces spaces stops text)
    · exact .inr ⟨rfl, rfl⟩
  simp only [command, marks, trails.trimEnd spaces, builtin?_trails spaces behind]
  cases builtin? (text.dropWhile isModifier) with
  | none =>
    have argument := behind.skipSpaces spaces
    simp [phrase_trails spaces argument, Function.comp_def]
  | some found =>
    have argument := (Text.trails_append tail found.2).skipSpaces spaces
    simp [phrase_trails spaces argument, Function.comp_def]

theorem bodyEntry_trails (trails : Text.Trails tail text other) :
    bodyEntry (line + count) other = (bodyEntry line text).shift count := by
  rcases head_split spaces '#' (by decide) trails with ⟨rest, rfl, rfl⟩ | ⟨plain, plain'⟩
  · exact comment_trails line count spaces trails
  · simp only [bodyEntry]
    exact command_trails line count spaces trails

end

theorem Directive.at?_trails (spaces : ∀ c ∈ tail, Text.isSpace c = true)
    (trails : Text.Trails tail text other) : at? other = at? text := by
  rcases head_split spaces '%' (by decide) trails with ⟨rest, rfl, rfl⟩ | ⟨plain, plain'⟩
  · rw [at?, at?, (Text.trails_append tail rest).name? spaces]
    cases Text.name? rest <;> rfl
  · simp only [at?]

theorem depthAfter_trails (spaces : ∀ c ∈ tail, Text.isSpace c = true) (depth : Nat) (text : Text) :
    depthAfter depth (text ++ tail) = depthAfter depth text := by
  rw [depthAfter, depthAfter, Directive.at?_trails spaces (Text.trimStart_trails spaces text)]

/-! Directives. Here the line is known to start with the directive's own word. -/

section

variable {directive : Directive} {argument : Text} (spaces : ∀ c ∈ tail, Text.isSpace c = true)

theorem argument_append (directive : Directive) (argument tail : Text) :
    directive.argument (directive.spelling ++ argument ++ tail) = argument ++ tail := by
  rw [List.append_assoc, argument_spelling]

include spaces

theorem undef_echo (argument : Text) :
    Echo (Node.shift count) tail (Directive.undef.spelling ++ argument).length
      (undef line (Directive.undef.spelling ++ argument))
      (undef (line + count) (Directive.undef.spelling ++ argument ++ tail)) := by
  have behind := (Text.trails_append tail argument).skipSpaces spaces
  simp only [undef, argument_append, argument_spelling, behind.name? spaces]
  cases named : Text.name? (Text.skipSpaces argument) with
  | none => exact .none
  | some found =>
    have after := Text.trails_append tail found.2
    simp only [Option.map_some, atLineEnd_trails spaces after, Text.consumed_append_both]
    split
    · refine .found (by simp) (after.skipSpaces spaces) ?_
      have shorter := Text.length_of_name? named
      have skipped := Text.length_skipSpaces_le argument
      have last := Text.length_skipSpaces_le found.2
      rw [List.length_append]
      omega
    · exact .none

/-- What was read, if it is all there is on its line. -/
theorem Echo.alone {room : Nat} {found found' : Option (Node × Text)}
    (echo : Echo (Node.shift count) tail room found found') :
    Echo (Node.shift count) tail room (found.filter fun read => atLineEnd read.2)
      (found'.filter fun read => atLineEnd read.2) := by
  cases echo with
  | none => exact .none
  | some trails fits =>
    simp only [Option.filter_some, atLineEnd_trails spaces trails]
    split
    · exact .some trails fits
    · exact .none

theorem blockHeader_trails (directive : Directive) (argument : Text) :
    blockHeader directive (line + count) (directive.spelling ++ argument ++ tail) =
      (blockHeader directive line (directive.spelling ++ argument)).map (Node.shift count) := by
  have behind := (Text.trails_append tail argument).skipSpaces spaces
  simp only [blockHeader, argument_append, argument_spelling]
  have word : Echo (Node.shift count) tail (Text.skipSpaces argument).length
      ((Text.name? (Text.skipSpaces argument)).map fun found =>
        (Node.leaf .identifier line found.1, found.2))
      ((Text.name? (Text.skipSpaces (argument ++ tail))).map fun found =>
        (Node.leaf .identifier (line + count) found.1, found.2)) := by
    rw [behind.name? spaces]
    cases named : Text.name? (Text.skipSpaces argument) with
    | none => exact .none
    | some found =>
      exact .some (Text.trails_append tail found.2) (Nat.le_of_lt (Text.length_of_name? named))
  refine (@Echo.alone tail count spaces (Text.skipSpaces argument).length _ _ ?_).values
  split
  · exact condition_echo line count spaces behind
  · exact word
  · exact word
  · simp only [phrase_trails spaces behind, Node.shift_text]
    by_cases empty : (phrase .path line (Text.skipSpaces argument)).text = []
    · simp only [if_pos empty]
      exact .none
    · simp only [if_neg empty]
      exact .some (.inr ⟨rfl, rfl⟩) (Nat.zero_le _)

variable {ending : Text}
  (rewritten : Text.Rewritten ending (directive.spelling ++ argument)
    (directive.spelling ++ argument ++ tail))

include rewritten

theorem diagnostic_like :
    Node.Like count ending (diagnostic directive line (directive.spelling ++ argument))
      (diagnostic directive (line + count) (directive.spelling ++ argument ++ tail)) := by
  have behind := (Text.trails_append tail argument).skipSpaces spaces
  simp only [diagnostic, argument_append, argument_spelling, phrase_trails spaces behind]
  exact .span rfl rewritten (.cons (.same _) (.cons (.same _) .nil))

theorem pathDirective_like {kind : Kind} (loose : kind.isLoose = true) :
    Option.Rel (Node.Like count ending)
      (pathDirective kind directive line (directive.spelling ++ argument))
      (pathDirective kind directive (line + count) (directive.spelling ++ argument ++ tail)) := by
  have behind := (Text.trails_append tail argument).skipSpaces spaces
  simp only [pathDirective, argument_append, argument_spelling, phrase_trails spaces behind,
    Node.shift_text]
  by_cases empty : (phrase .path line (Text.skipSpaces argument)).text = []
  · simp only [if_pos empty]
    exact .none
  · simp only [if_neg empty]
    exact .some (.span loose rewritten (.cons (.same _) (.cons (.same _) .nil)))

end

end BmakeZig.Source
