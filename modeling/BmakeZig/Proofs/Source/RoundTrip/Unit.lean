import BmakeZig.Proofs.Source.RoundTrip.Rule

/-! Printed blocks and units. The induction is on the number of statements the reader may still take,
which is more than the printed text has characters. -/
namespace BmakeZig.Outline

open Source (Cursor Directive Gap Sentence Level newline_not_mem_name name?_name spelling_inj
  argument_spelling)

variable {c : Cursor} {tail : Text}

/-- A place where the reader of a body that ends with one of the directives in `ends` stops. -/
def Stops (ends : List Directive) (tail : Text) : Prop :=
  tail = [] ∨ ∃ directive ∈ ends, Directive.at? tail = some directive

theorem starts_of_at? {text : Text} {directive : Directive}
    (named : Directive.at? text = some directive) : Cursor.Starts text := by
  unfold Directive.at? at named
  split at named
  · intro first same
    obtain rfl := Option.some.inj same
    decide
  · simp at named

theorem Stops.starts {ends : List Directive} (stops : Stops ends tail) : Cursor.Starts tail := by
  rcases stops with rfl | ⟨directive, -, named⟩
  · simp [Cursor.Starts]
  · exact starts_of_at? named

/-- A reader that gives back every body whose text is shorter than `limit`. -/
def ReadsBack (limit : Nat) (body : Source.BodyReader) : Prop :=
  ∀ (ends : List Directive) (c : Cursor) (unit : List Statement) (tail : Text),
    AllFilled unit → ends ⊆ Source.clauseEnds → Stops ends tail →
    (print unit).length < limit → c.skipBlank.rest = print unit ++ tail →
    ∃ text children stop, body ends c = (.branch .body c.line text children, stop) ∧
      ofNodes? children = some unit ∧ stop.rest = tail

theorem condition_read (line : Nat) (condition : Condition) {gap : Text} (spaces : Gap gap) :
    ∃ node left, Source.condition line (gap ++ condition.print) = some (node, left) ∧
      Source.atLineEnd left = true ∧ Condition.ofNode? node = some condition := by
  obtain ⟨node, sentence, named⟩ := condition_printed line condition
  have whole : Sentence line .or condition.print node := sentence.loosen (by simp [Level.rank])
  obtain ⟨left, read, behind⟩ := Source.condition_sentence whole spaces (Source.ends_nil .or)
  rw [List.append_nil] at read
  refine ⟨node, left, read, ?_, named⟩
  rw [Source.atLineEnd, behind.skip]
  rfl

theorem newline_not_mem_argument (test : Test) : '\n' ∉ test.argument := by
  cases test with
  | holds condition => exact newline_not_mem_condition condition
  | isDefined target | isUndefined target => exact newline_not_mem_name target.2
  | isFile path | isNoFile path => exact path.2.1.1

theorem atLineEnd_nil : Source.atLineEnd [] = true :=
  rfl

theorem blockHeader_printed (line : Nat) (test : Test) :
    ∃ node, Source.blockHeader test.directive line
        (test.directive.spelling ++ ' ' :: test.argument) = some node ∧
      Test.ofNode? test.directive.spelling node = some test := by
  cases test with
  | holds condition =>
    obtain ⟨node, left, read, finished, named⟩ := condition_read line condition gap_none
    have start : Text.skipSpaces condition.print = condition.print := by
      obtain ⟨_, sentence, _⟩ := condition_printed line condition
      simpa using sentence.solid.skip []
    refine ⟨node, ?_, ?_⟩
    · rw [List.nil_append] at read
      simp [Source.blockHeader, Test.directive, Test.argument, argument_spelling, skipSpaces_blank,
        start, read, finished]
    · simp [Test.ofNode?, Test.directive, named]
  | isDefined target | isUndefined target =>
    refine ⟨.leaf .identifier line target.1, ?_, ?_⟩
    · simp [Source.blockHeader, Test.directive, Test.argument, argument_spelling, skipSpaces_blank,
        skipSpaces_name target.2, name?_name target.2, atLineEnd_nil]
    · simp [Test.ofNode?, Test.directive, spelling_inj, Node.leaf, check?_val]
  | isFile path | isNoFile path =>
    refine ⟨.branch .path line path.1 (Source.pieces line path.1), ?_, ?_⟩
    · simp [Source.blockHeader, Test.directive, Test.argument, argument_spelling, skipSpaces_blank,
        path.2.1.skip, path.2.1.phrase_text, Node.branch, path.2.2, atLineEnd_nil]
    · simp [Test.ofNode?, Test.directive, spelling_inj, Node.branch, check?_val]

theorem at?_other {text : Text} (other : text.head? ≠ some '%') : Directive.at? text = none := by
  unfold Directive.at?
  split
  · simp at other
  · rfl

/-- Text that goes on with a statement and not with the end of a body. -/
structure Opens (text : Text) : Prop where
  starts : Cursor.Starts text
  noEnd : ∀ directive, Directive.at? text = some directive → directive ∉ Source.clauseEnds

theorem opens_written {word : Directive} (other : word ∉ Source.clauseEnds) (argument rest : Text) :
    Opens (written word argument ++ rest) := by
  have named := at?_written word argument rest
  refine ⟨starts_of_at? named, fun directive same => ?_⟩
  obtain rfl := Option.some.inj (named.symm.trans same)
  exact other

theorem opens_plain {first : Char} (solid : Text.isBlank first = false) (other : first ≠ '%')
    (rest : Text) : Opens (first :: rest) := by
  refine ⟨fun c same => ?_, fun directive named => ?_⟩
  · obtain rfl := Option.some.inj same
    exact solid
  · rw [at?_other (by simpa using other)] at named
    simp at named

theorem statement_opens (statement : Statement) (tail : Text) :
    Opens (statement.print ++ tail) := by
  cases statement with
  | remark text =>
    obtain ⟨rest, marked⟩ := List.head?_eq_some_iff.1 text.2.2
    simp only [Statement.print, marked, List.cons_append]
    exact opens_plain (by decide) (by decide) _
  | assignment target sign value =>
    obtain ⟨first, more, shape, start⟩ := head?_name target.2
      (' ' :: sign.spelling ++ ' ' :: value.1 ++ ['\n'] ++ tail)
    simp only [Statement.print, List.append_assoc] at shape ⊢
    rw [shape]
    have named := Text.isNameChar_of_isNameStart start
    refine opens_plain (Text.isBlank_of_isNameChar named) ?_ more
    rintro rfl
    exact absurd named (by decide)
  | undef target => exact opens_written (by decide) _ tail
  | inclusion path => exact opens_written (by decide) _ tail
  | search path => exact opens_written (by decide) _ tail
  | report report message =>
    exact opens_written (by cases report <;> decide) _ tail
  | rule target entries =>
    cases target with
    | always => exact @opens_plain 'a' (by decide) (by decide) _
    | declared declaration =>
      obtain ⟨rest, dotted⟩ := List.head?_eq_some_iff.1 declaration.2.1
      simp only [Statement.print, Target.print, dotted, List.cons_append]
      exact opens_plain (by decide) (by decide) _
  | conditional test body clauses =>
    simp only [Statement.print, List.append_assoc]
    exact opens_written (by cases test <;> simp [Test.directive, Source.clauseEnds]) _ _

theorem starts_print (unit : List Statement) (starts : Cursor.Starts tail) :
    Cursor.Starts (print unit ++ tail) := by
  cases unit with
  | nil => exact starts
  | cons statement rest =>
    rw [print, List.append_assoc]
    exact (statement_opens statement _).starts

theorem alone_next {directive : Directive} (unread : c.rest = alone directive ++ tail) :
    Directive.at? c.skipBlank.rest = some directive ∧
      c.skipBlank.Faces directive.spelling tail := by
  have named : Directive.at? c.rest = some directive := by rw [unread, at?_alone]
  have same : c.skipBlank.rest = c.rest := Cursor.rest_skipBlank (starts_of_at? named)
  exact ⟨by rw [same, named], faces_alone (same.trans unread)⟩

theorem written_next {directive : Directive} {argument : Text} (single : '\n' ∉ argument)
    (unread : c.rest = written directive argument ++ tail) :
    Directive.at? c.skipBlank.rest = some directive ∧
      c.skipBlank.Faces (directive.spelling ++ ' ' :: argument) tail := by
  have named : Directive.at? c.rest = some directive := by rw [unread, at?_written]
  have same : c.skipBlank.rest = c.rest := Cursor.rest_skipBlank (starts_of_at? named)
  exact ⟨by rw [same, named], faces_written (same.trans unread) single⟩

theorem argument_nothing (directive : Directive) : directive.argument directive.spelling = [] := by
  simpa using argument_spelling directive []

/-- The end of a block. -/
theorem clauses_endIf (body : Source.BodyReader) (fuel : Nat)
    (unread : c.rest = alone .endIf ++ tail) :
    ∃ line last, Source.clauses body (fuel + 1) c =
        some ([.token line Directive.endIf.spelling], last) ∧ last.rest = '\n' :: tail := by
  obtain ⟨named, faces⟩ := alone_next unread
  refine ⟨c.skipBlank.line, c.skipBlank.within [], ?_, faces.within⟩
  simp only [Source.clauses, named, faces.here, argument_nothing]

/-- What follows a clause's line: its body, and then the clauses behind it. -/
theorem body_printed {limit : Nat} {body : Source.BodyReader} {ends : List Directive}
    {line behind : Text} (reads : ReadsBack limit body) {inner : List Statement}
    (filled : AllFilled inner) (inside : ends ⊆ Source.clauseEnds) (stops : Stops ends behind)
    (short : (print inner).length < limit) (faces : c.Faces line (print inner ++ behind)) :
    ∃ text children stop, body ends c.nextLine =
        (.branch .body c.nextLine.line text children, stop) ∧
      ofNodes? children = some inner ∧ stop.rest = behind := by
  refine reads ends c.nextLine inner behind filled inside stops short ?_
  rw [faces.nextLine]
  exact (starts_print inner stops.starts).dropWhile

theorem clauses_stops (clauses : Clauses) (tail : Text) :
    Stops Source.clauseEnds (clauses.print ++ tail) := by
  cases clauses with
  | done => exact .inr ⟨.endIf, by decide, at?_alone _ _⟩
  | otherwise inner =>
    rw [Clauses.print, List.append_assoc, List.append_assoc]
    exact .inr ⟨.otherwise, by decide, at?_alone _ _⟩
  | elseIf condition inner rest =>
    rw [Clauses.print, List.append_assoc, List.append_assoc]
    exact .inr ⟨.elseIf, by decide, at?_written _ _ _⟩

theorem clauses_printed {limit : Nat} {body : Source.BodyReader} (reads : ReadsBack limit body)
    (fuel : Nat) (clauses : Clauses) (filled : clauses.Filled)
    (short : clauses.print.length ≤ limit) (enough : clauses.print.length < fuel)
    (unread : c.rest = clauses.print ++ tail) :
    ∃ nodes last, Source.clauses body fuel c = some (nodes, last) ∧
      Clauses.ofNodes? nodes = some clauses ∧ last.rest = '\n' :: tail := by
  induction fuel generalizing clauses c with
  | zero => omega
  | succ fuel ih =>
    cases clauses with
    | done =>
      obtain ⟨line, last, read, finished⟩ := clauses_endIf body fuel unread
      exact ⟨_, last, read, by simp [Clauses.ofNodes?, Node.token], finished⟩
    | otherwise inner =>
      rw [Clauses.print, List.append_assoc, List.append_assoc] at unread
      simp only [Clauses.print, alone, List.length_append, List.length_singleton] at short enough
      obtain ⟨named, faces⟩ := alone_next unread
      have stops : Stops [.endIf] (alone .endIf ++ tail) := .inr ⟨.endIf, by simp, at?_alone _ _⟩
      obtain ⟨text, children, stop, inside, read, left⟩ :=
        body_printed reads filled (by decide) stops (by omega) faces
      -- Behind this clause only the end of the block is left to read, which takes one more turn.
      obtain ⟨fuel, rfl⟩ : ∃ n, fuel = n + 1 := ⟨fuel - 1, by omega⟩
      obtain ⟨line, last, closed, finished⟩ := clauses_endIf body fuel left
      have whole : Source.clauses body (fuel + 1 + 1) c =
          some ([.branch .elseClause c.skipBlank.line (c.skipBlank.upTo stop)
            [.token c.skipBlank.line Directive.otherwise.spelling,
              .branch .body c.skipBlank.nextLine.line text children],
            .token line Directive.endIf.spelling], last) := by
        rw [Source.clauses]
        simp only [named, faces.here, argument_nothing, atLineEnd_nil, inside, closed, if_true,
          Option.map_some]
      refine ⟨_, last, whole, ?_, finished⟩
      simp [Clauses.ofNodes?, Node.branch, Node.token, read]
    | elseIf condition inner rest =>
      rw [Clauses.print, List.append_assoc, List.append_assoc] at unread
      simp only [Clauses.print, written, List.length_append, List.length_cons] at short enough
      obtain ⟨named, faces⟩ := written_next (newline_not_mem_condition condition) unread
      obtain ⟨test, left, header, ended, tested⟩ :=
        condition_read c.skipBlank.line condition gap_blank
      obtain ⟨text, children, stop, inside, read, behind⟩ :=
        body_printed reads filled.1 (by simp) (clauses_stops rest tail) (by omega) faces
      obtain ⟨more, last, closed, others, finished⟩ := ih rest filled.2 (by omega) (by omega) behind
      have whole : Source.clauses body (fuel + 1) c =
          some (.branch .elifClause c.skipBlank.line (c.skipBlank.upTo stop)
            [.token c.skipBlank.line Directive.elseIf.spelling, test,
              .branch .body c.skipBlank.nextLine.line text children] :: more, last) := by
        rw [Source.clauses]
        rw [List.singleton_append] at header
        simp only [named, faces.here, argument_spelling, header, Option.filter_some, ended, inside,
          closed, if_true, Option.map_some]
      refine ⟨_, last, whole, ?_, finished⟩
      simp [Clauses.ofNodes?, Node.branch, tested, read, others]

theorem conditional_taken {limit : Nat} {body : Source.BodyReader} (reads : ReadsBack limit body)
    {test : Test} {inner : List Statement} {clauses : Clauses}
    (filled : (Statement.conditional test inner clauses).Filled)
    (short : (Statement.conditional test inner clauses).print.length ≤ limit)
    (starts : Cursor.Starts tail)
    (unread : c.rest = (Statement.conditional test inner clauses).print ++ tail) :
    Taken (Source.statement body c) (.conditional test inner clauses) tail := by
  simp only [Statement.print, List.append_assoc] at unread
  simp only [Statement.print, written, List.length_append, List.length_cons] at short
  have faces := faces_written unread (newline_not_mem_argument test)
  obtain ⟨node, header, tested⟩ := blockHeader_printed c.line test
  obtain ⟨text, children, stop, inside, read, left⟩ :=
    body_printed reads filled.1 (by simp) (clauses_stops clauses tail) (by omega) faces
  obtain ⟨more, last, closed, others, finished⟩ := clauses_printed reads (stop.rest.length + 1) clauses
    filled.2 (by omega) (by rw [left, List.length_append]; omega) left
  have named : Directive.at? c.rest = some test.directive := by rw [unread, at?_written]
  obtain ⟨rest, first⟩ : ∃ rest, c.rest = '%' :: rest := ⟨_, unread⟩
  have opens : test.directive.opensBlock = true := by cases test <;> rfl
  have whole : Source.statement body c =
      (.branch .conditional c.line (c.upTo last) (.token c.line test.directive.spelling :: node ::
        .branch .body c.nextLine.line text children :: more), last.lineEnd) := by
    rw [Source.statement, first]
    simp [Source.directiveStatement, named, opens, Source.block, faces.here, header, inside, closed]
  rw [whole]
  have behind : last.lineEnd.rest = '\n' :: tail := by
    simp [Cursor.lineEnd, Cursor.below, finished]
  refine ⟨?_, by simp [Node.branch], Cursor.rest_skipBlank_newline behind starts⟩
  simp [Node.branch, Node.token, Statement.ofNode?, tested, read, others]

theorem statement_printed {limit : Nat} {body : Source.BodyReader} (reads : ReadsBack limit body)
    (statement : Statement) (filled : statement.Filled) (short : statement.print.length ≤ limit)
    (starts : Cursor.Starts tail) (unread : c.rest = statement.print ++ tail) :
    Taken (Source.statement body c) statement tail := by
  cases statement with
  | remark text => exact remark_taken starts unread
  | assignment target sign value => exact assignment_taken starts unread
  | undef target => exact undef_taken starts unread
  | inclusion path => exact inclusion_taken starts unread
  | search path => exact search_taken starts unread
  | report report message => exact report_taken starts unread
  | rule target entries => exact rule_taken filled starts unread
  | conditional test inner clauses => exact conditional_taken reads filled short starts unread

theorem joinErrors_read {spans : List Source.Span} (read : ∀ span ∈ spans, span.node.kind ≠ .error) :
    Source.joinErrors spans = spans := by
  induction spans with
  | nil => rfl
  | cons span rest ih =>
    rw [Source.joinErrors, ih fun other member => read other (List.mem_cons_of_mem _ member)]
    cases rest with
    | nil => rfl
    | cons next more => simp [read span]

theorem print_ne_nil (statement : Statement) : statement.print ≠ [] := by
  cases statement <;> simp [Statement.print, written]

/-- The reader takes the statements of a printed unit one by one. The limit is above the length of
the text, and every statement, and every body in it, is shorter than the text. -/
theorem spans_printed (limit : Nat) {ends : List Directive} (unit : List Statement)
    (filled : AllFilled unit) (inside : ends ⊆ Source.clauseEnds) (stops : Stops ends tail)
    (short : (print unit).length < limit) (unread : c.skipBlank.rest = print unit ++ tail) :
    ofNodes? ((Source.spans limit ends c).1.map (·.node)) = some unit ∧
      (∀ span ∈ (Source.spans limit ends c).1, span.node.kind ≠ .error) ∧
      (Source.spans limit ends c).2.rest = tail := by
  induction limit generalizing ends c unit tail with
  | zero => omega
  | succ limit ih =>
    cases unit with
    | nil =>
      have finished : c.skipBlank.rest = [] ∨ (Directive.at? c.skipBlank.rest).any (ends.contains ·) := by
        rw [unread]
        refine stops.imp id fun ⟨directive, member, named⟩ => ?_
        simp [print, named, member]
      rw [Source.spans, if_pos finished]
      exact ⟨rfl, by simp, unread⟩
    | cons statement rest =>
      rw [print, List.append_assoc] at unread
      rw [print, List.length_append] at short
      have opens : Opens c.skipBlank.rest := unread ▸ statement_opens statement _
      -- No printed statement starts with a word that ends a body.
      have more : ¬(c.skipBlank.rest = [] ∨
          (Directive.at? c.skipBlank.rest).any (ends.contains ·)) := by
        rintro (finished | ended)
        · rw [unread, List.append_eq_nil_iff] at finished
          exact print_ne_nil statement finished.1
        · obtain ⟨directive, named, member⟩ := (Option.any_eq_true ..).1 ended
          exact opens.noEnd directive named (inside (List.contains_iff_mem.1 member))
      -- Bodies are read with the smaller limit, so the induction hypothesis is about them too.
      have reads : ReadsBack limit
          fun ends start => Source.bodyOf start (Source.spans limit ends start) := by
        intro ends start body behind filled inside stops short unread
        obtain ⟨named, read, left⟩ := ih body filled inside stops short unread
        refine ⟨_, _, _, rfl, ?_, left⟩
        rwa [joinErrors_read read]
      obtain ⟨named, read, left⟩ := statement_printed reads statement filled.1 (by omega)
        (starts_print rest stops.starts) unread
      have some_text := List.length_pos_iff.2 (print_ne_nil statement)
      obtain ⟨others, allRead, finished⟩ := ih rest filled.2 inside stops (by omega) left
      rw [Source.spans, if_neg more]
      refine ⟨?_, ?_, finished⟩
      · simp [ofNodes?, named, others]
      · intro span member
        rcases List.mem_cons.1 member with rfl | later
        · exact read
        · exact allRead span later

/-- A unit without empty command lines is read back from what is printed of it. -/
theorem ofTree?_parse_print (unit : List Statement) (filled : AllFilled unit) :
    ofTree? (Source.parse (print unit)) = some unit := by
  have unread : (Cursor.start (print unit)).skipBlank.rest = print unit ++ [] := by
    have starts : Cursor.Starts (print unit ++ []) := starts_print unit (by simp [Cursor.Starts])
    rw [List.append_nil] at starts ⊢
    exact Cursor.rest_skipBlank starts
  obtain ⟨named, read, -⟩ := spans_printed ((print unit).length + 1) unit filled
    (List.nil_subset _) (.inl rfl) (Nat.lt_succ_self _) unread
  rw [Source.parse, joinErrors_read read]
  exact named

/-- A unit with a block in a block, both of them with clauses, and a rule in the inner one. -/
def nestedUnit : List Statement :=
  let debug : Name := ⟨"DEBUG".toList, by decide⟩
  let flags : Name := ⟨"FLAGS".toList, by decide⟩
  let echo : Command :=
    ⟨⟨⟨['-', '@'], by decide⟩, some ⟨"echo".toList, by decide⟩, ⟨"a b".toList, by decide⟩⟩,
      by decide⟩
  [.assignment flags .addAtOnce ⟨"$(A) = b".toList, by decide⟩,
    .conditional (.holds (.and (.not (.defined debug)) (.eq (.name flags) (.string ⟨[], by decide⟩))))
      [.conditional (.isUndefined debug)
        [.rule .always [.remark ⟨"# x".toList, by decide⟩, .command echo]] (.otherwise [])]
      (.elseIf (.or (.name debug) (.name flags)) [.undef flags]
        (.otherwise [.report .warn ⟨[], by decide⟩]))]

theorem nestedUnit_read_back :
    AllFilled nestedUnit ∧ ofTree? (Source.parse (print nestedUnit)) = some nestedUnit := by
  have filled : AllFilled nestedUnit := by
    simp [nestedUnit, AllFilled, Statement.Filled, Clauses.Filled, Entry.Filled, Command.print]
  exact ⟨filled, ofTree?_parse_print nestedUnit filled⟩

/-- A rule whose only command line is empty, and so is printed as a blank line. -/
def blankCommandUnit : List Statement :=
  [.rule (.declared ⟨".t".toList, by decide⟩)
    [.command ⟨⟨⟨[], by decide⟩, none, ⟨[], by decide⟩⟩, by decide⟩]]

theorem blankCommandUnit_not_read_back :
    ofTree? (Source.parse (print blankCommandUnit)) ≠ some blankCommandUnit := by
  intro same
  -- Units are compared by what is printed of them, which can be computed.
  have shorter : (ofTree? (Source.parse (print blankCommandUnit))).map print ≠
      some (print blankCommandUnit) := by decide +kernel
  exact shorter (by rw [same]; rfl)

end BmakeZig.Outline
