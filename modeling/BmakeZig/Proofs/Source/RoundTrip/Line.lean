import BmakeZig.Proofs.Source.RoundTrip.Condition

/-! Printed statements of one line. One starts in the first column and ends with its line, so the
reader comes back to the first column behind it; nothing here depends on the numbers of the
lines. -/
namespace BmakeZig.Outline

open Source (Cursor Directive Solid newline_not_mem_name newline_not_mem_spelling name?_name
  at?_spelling argument_spelling)

namespace Clean

variable {text : Text}

theorem starts (clean : Clean text) : Cursor.Starts text := by
  intro c first
  cases text with
  | nil => simp at first
  | cons d rest =>
    obtain rfl := Option.some.inj first
    by_contra blank
    rw [Bool.not_eq_false] at blank
    have shorter := Text.length_dropWhile_le Text.isBlank rest
    have same := clean.2.1
    rw [Text.trimStart, List.dropWhile_cons_of_pos blank] at same
    rw [same, List.length_cons] at shorter
    omega

theorem skip (clean : Clean text) : Text.skipSpaces text = text := by
  cases text with
  | nil => rfl
  | cons c rest =>
    have solid := (Solid.singleton (clean.starts c rfl)).start c rfl
    simp [Text.skipSpaces, solid]

theorem phrase_text (clean : Clean text) (kind : Kind) (line : Nat) :
    Source.phrase kind line text = .branch kind line text (Source.pieces line text) := by
  simp [Source.phrase, clean.2.2]

end Clean

theorem skipSpaces_blank (text : Text) : Text.skipSpaces (' ' :: text) = Text.skipSpaces text :=
  List.dropWhile_cons_of_pos (by decide)

theorem skipSpaces_name {name : Text} (named : Text.isName name = true) :
    Text.skipSpaces name = name := by
  simpa using (Solid.ofName named).skip []

/-! Directives. -/

theorem at?_written (directive : Directive) (argument rest : Text) :
    Directive.at? (written directive argument ++ rest) = some directive := by
  simp only [written, List.append_assoc]
  exact at?_spelling directive (by simp [Text.isNameChar])

theorem at?_alone (directive : Directive) (rest : Text) :
    Directive.at? (alone directive ++ rest) = some directive := by
  simp only [alone, List.append_assoc]
  exact at?_spelling directive (by simp [Text.isNameChar])

theorem faces_written {c : Cursor} {directive : Directive} {argument tail : Text}
    (unread : c.rest = written directive argument ++ tail) (single : '\n' ∉ argument) :
    c.Faces (directive.spelling ++ ' ' :: argument) tail where
  unread := by simp [unread, written]
  single := by simp [newline_not_mem_spelling, single]

theorem faces_alone {c : Cursor} {directive : Directive} {tail : Text}
    (unread : c.rest = alone directive ++ tail) : c.Faces directive.spelling tail where
  unread := by simp [unread, alone]
  single := newline_not_mem_spelling directive

/-! Statements of one line. -/

/-- A reader has taken a statement, and nothing but blanks stands between it and `tail`. -/
structure Taken (found : Node × Cursor) (statement : Statement) (tail : Text) : Prop where
  node : Statement.ofNode? found.1 = some statement
  read : found.1.kind ≠ .error
  stop : found.2.skipBlank.rest = tail

variable {body : Source.BodyReader} {c : Cursor} {tail : Text}

theorem remark_taken {text : Remark} (starts : Cursor.Starts tail)
    (unread : c.rest = (Statement.remark text).print ++ tail) :
    Taken (Source.statement body c) (.remark text) tail := by
  have faces : c.Faces text.1 tail := ⟨by simp [unread, Statement.print], text.2.1.1⟩
  obtain ⟨rest, marked⟩ : ∃ rest, text.1 = '#' :: rest := List.head?_eq_some_iff.1 text.2.2
  have read : Source.statement body c = (Source.comment c.line c.here, c.lineEnd) := by
    rw [Source.statement, faces.unread, marked]
    rfl
  rw [read, Source.comment, faces.here, text.2.1.2.2]
  refine ⟨?_, by simp [Node.leaf], Cursor.rest_skipBlank_newline faces.lineEnd starts⟩
  simp [Node.leaf, Statement.ofNode?, check?_val]

/-- A directive of one line is read by its own reader. -/
theorem statement_directive {directive : Directive} {argument : Text}
    (unread : c.rest = written directive argument ++ tail) (oneLine : directive.opensBlock = false) :
    Source.statement body c =
      (Source.lineDirective directive c).getD (Source.errorLine c) := by
  have named : Directive.at? c.rest = some directive := by rw [unread, at?_written]
  have marked : ∃ rest, c.rest = '%' :: rest := ⟨_, unread⟩
  obtain ⟨rest, first⟩ := marked
  rw [Source.statement, first]
  simp [Source.directiveStatement, named, oneLine]

theorem report_taken {report : Report} {message : Line} (starts : Cursor.Starts tail)
    (unread : c.rest = written report.directive message.1 ++ tail) :
    Taken (Source.statement body c) (.report report message) tail := by
  have faces := faces_written unread message.2.1
  have oneLine : report.directive.opensBlock = false := by cases report <;> rfl
  have named : Report.ofText? report.directive.spelling = some report := by cases report <;> decide
  have read : Source.lineDirective report.directive c =
      some (Source.diagnostic report.directive c.line c.here, c.lineEnd) := by
    cases report <;> rfl
  rw [statement_directive unread oneLine, read, Option.getD_some]
  refine ⟨?_, by simp [Source.diagnostic, Node.branch],
    Cursor.rest_skipBlank_newline faces.lineEnd starts⟩
  rw [Source.diagnostic, faces.here, argument_spelling, skipSpaces_blank, message.2.skip,
    message.2.phrase_text]
  simp [Node.branch, Node.token, Statement.ofNode?, named, check?_val]

/-- The path a directive asks for is there. -/
theorem pathDirective_written {kind : Kind} {directive : Directive} {path : Place}
    (faces : c.Faces (directive.spelling ++ ' ' :: path.1) tail) :
    Source.pathDirective kind directive c.line c.here =
      some (.branch kind c.line c.here [.token c.line directive.spelling,
        .branch .path c.line path.1 (Source.pieces c.line path.1)]) := by
  rw [Source.pathDirective, faces.here, argument_spelling, skipSpaces_blank, path.2.1.skip,
    path.2.1.phrase_text]
  exact if_neg path.2.2

theorem inclusion_taken {path : Place} (starts : Cursor.Starts tail)
    (unread : c.rest = written .inclusion path.1 ++ tail) :
    Taken (Source.statement body c) (.inclusion path) tail := by
  have faces := faces_written unread path.2.1.1
  rw [statement_directive unread rfl, Source.lineDirective,
    pathDirective_written faces]
  refine ⟨?_, by simp [Node.branch], Cursor.rest_skipBlank_newline faces.lineEnd starts⟩
  simp [Node.branch, Statement.ofNode?, check?_val]

theorem search_taken {path : Place} (starts : Cursor.Starts tail)
    (unread : c.rest = written .search path.1 ++ tail) :
    Taken (Source.statement body c) (.search path) tail := by
  have faces := faces_written unread path.2.1.1
  rw [statement_directive unread rfl, Source.lineDirective,
    pathDirective_written faces]
  refine ⟨?_, by simp [Node.branch], Cursor.rest_skipBlank_newline faces.lineEnd starts⟩
  simp [Node.branch, Statement.ofNode?, check?_val]

theorem undef_taken {target : Name} (starts : Cursor.Starts tail)
    (unread : c.rest = written .undef target.1 ++ tail) :
    Taken (Source.statement body c) (.undef target) tail := by
  have faces := faces_written unread (newline_not_mem_name target.2)
  have read : ∃ text, Source.undef c.line c.here = some (.branch .undef c.line text
      [.token c.line Directive.undef.spelling, .leaf .identifier c.line target.1], []) := by
    rw [Source.undef, faces.here, argument_spelling, skipSpaces_blank, skipSpaces_name target.2,
      name?_name target.2]
    exact ⟨_, rfl⟩
  obtain ⟨text, read⟩ := read
  rw [statement_directive unread rfl, Source.lineDirective, read]
  refine ⟨?_, by simp [Node.branch], Cursor.rest_skipBlank_newline faces.within starts⟩
  simp [Node.branch, Node.leaf, Statement.ofNode?, check?_val]

theorem operator?_spelling (sign : Sign) (rest : Text) :
    ∃ operator, Source.operator? (sign.spelling ++ ' ' :: rest) = some (operator, ' ' :: rest) ∧
      operator = ⟨sign.spelling, sign.appends, sign.expands⟩ := by
  cases sign <;>
    simp [Source.operator?, Source.operators, Sign.spelling, Sign.appends, Sign.expands, Text.after?]

theorem head?_name {name : Text} (named : Text.isName name = true) (rest : Text) :
    ∃ c more, name ++ rest = c :: more ∧ Text.isNameStart c = true := by
  cases name with
  | nil => simp [Text.isName] at named
  | cons c name =>
    simp only [Text.isName, Bool.and_eq_true] at named
    exact ⟨c, name ++ rest, rfl, named.1⟩

/-- Nothing that starts with a name is taken for a comment, a directive or a declared rule. -/
theorem statement_name {name rest : Text} (named : Text.isName name = true)
    (unread : c.rest = name ++ rest) : Source.statement body c = Source.assignmentOrRule c := by
  obtain ⟨first, more, shape, start⟩ := head?_name named rest
  rw [Source.statement, unread, shape]
  split
  · next same => simp_all [Text.isNameStart]
  · next same => simp_all [Text.isNameStart]
  · next same => simp_all [Text.isNameStart]
  · rfl

theorem assignment_taken {target : Name} {sign : Sign} {value : Line}
    (starts : Cursor.Starts tail)
    (unread : c.rest = (Statement.assignment target sign value).print ++ tail) :
    Taken (Source.statement body c) (.assignment target sign value) tail := by
  have faces : c.Faces (target.1 ++ ' ' :: (sign.spelling ++ ' ' :: value.1)) tail := by
    refine ⟨by simp [unread, Statement.print], ?_⟩
    have plain : '\n' ∉ sign.spelling := by cases sign <;> decide
    simp [newline_not_mem_name target.2, plain, value.2.1]
  have named : Sign.ofText? sign.appends sign.expands sign.spelling = some sign := by
    cases sign <;> decide
  obtain ⟨operator, found, rfl⟩ := operator?_spelling sign value.1
  have word : Text.name? c.here = some (target.1, ' ' :: (sign.spelling ++ ' ' :: value.1)) := by
    rw [faces.here]
    exact Text.name?_append target.2 (by simp [Text.isNameChar])
  have next : Text.skipSpaces (' ' :: (sign.spelling ++ ' ' :: value.1)) =
      sign.spelling ++ ' ' :: value.1 := by
    cases sign <;> simp [Text.skipSpaces, Text.isSpace, Sign.spelling]
  have noColon : (sign.spelling ++ ' ' :: value.1).head? ≠ some ':' := by
    cases sign <;> simp [Sign.spelling]
  have read : Source.assignmentOrRule c =
      (.branch (.assignment sign.appends sign.expands) c.line (Text.trimEnd c.here)
        [.leaf .identifier c.line target.1, .token c.line sign.spelling,
          .branch .value c.line value.1 (Source.pieces c.line value.1)], c.lineEnd) := by
    rw [Source.assignmentOrRule, word]
    simp only [next]
    rw [if_neg fun rule => noColon rule.2, Source.assignment, word]
    simp only [next, found, Option.map_some, Option.getD_some, skipSpaces_blank,
      value.2.skip, value.2.phrase_text]
  rw [statement_name target.2 (faces.unread.trans (List.append_assoc ..)), read]
  refine ⟨?_, by simp [Node.branch], Cursor.rest_skipBlank_newline faces.lineEnd starts⟩
  simp [Node.branch, Node.leaf, Node.token, Statement.ofNode?, named, check?_val]

end BmakeZig.Outline
