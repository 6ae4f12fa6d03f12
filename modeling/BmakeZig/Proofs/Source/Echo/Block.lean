import BmakeZig.Proofs.Source.Echo.Rule
import BmakeZig.Proofs.Source.Placement.Block

/-! Conditional blocks, and with them every kind of statement, read further down and with other line ends.
The readers of bodies are arguments here, and agree by assumption. -/
namespace BmakeZig.Source

variable {ending : Text} {c : Cursor} {depth size : Nat} {body body' : BodyReader} (count : Nat)

/-! The way to the end of a block, line by line. -/

theorem skipBlock_closed (closed : depthAfter depth c.here = 0) : skipBlock depth c = c.lineEnd := by
  rw [skipBlock, if_pos closed]

theorem skipBlock_last (last : c.below = []) : skipBlock depth c = c.lineEnd := by
  rw [skipBlock]
  split
  · rfl
  · split
    · rfl
    · next found => simp [last] at found

theorem skipBlock_open (stillOpen : depthAfter depth c.here ≠ 0) (more : c.below ≠ []) :
    skipBlock depth c = skipBlock (depthAfter depth c.here) c.nextLine := by
  rw [skipBlock, if_neg stillOpen]
  split
  · next last => exact absurd last more
  · next rest found =>
    have next : c.nextLine = ⟨c.line + 1, rest⟩ := by rw [Cursor.nextLine, found]
    rw [next]

theorem depthAfter_nil (depth : Nat) : depthAfter depth [] = depth :=
  rfl

/-- A block that is open ends on a line with something on it, if it ends before the source does. -/
theorem skipBlock_filled (busy : depth ≠ 0 ∨ c.here ≠ []) :
    ∃ text, c.Moves text (skipBlock depth c) ∧ ∀ below, (skipBlock depth c).rest = '\n' :: below →
      ∃ front d, text = front ++ [d] ∧ d ≠ '\n' := by
  fun_induction skipBlock depth c with
  | case1 depth c closed =>
    have filled : c.here ≠ [] := busy.elim (fun started empty => started (by
      rwa [empty, depthAfter_nil] at closed)) id
    exact ⟨c.here, c.moves_lineEnd, fun _ _ => Cursor.here_concat filled⟩
  | case2 depth c stillOpen last =>
    refine ⟨c.here, c.moves_lineEnd, fun below unread => ?_⟩
    rw [Cursor.lineEnd, last] at unread
    cases unread
  | case3 depth c stillOpen first rest below shorter ih =>
    obtain ⟨text, moves, filled⟩ := ih (.inl stillOpen)
    obtain ⟨line, next⟩ := c.moves_nextLine
    have same : c.nextLine = ⟨c.line + 1, rest⟩ := by rw [Cursor.nextLine, below]
    rw [same] at next
    refine ⟨_, next.trans moves, fun below unread => ?_⟩
    obtain ⟨front, d, split, other⟩ := filled below unread
    exact ⟨(c.here ++ line) ++ front, d, by simp [split], other⟩

theorem pathDirective_kind {kind : Kind} {directive : Directive} {line : Nat} {here : Text} {node : Node}
    (read : pathDirective kind directive line here = some node) : node.kind = kind := by
  simp only [pathDirective] at read
  split at read
  · cases read
  · rw [← Option.some.inj read]
    rfl

theorem assignment_kind {line : Nat} {here : Text} {node : Node}
    (read : assignment line here = some node) : node.kind ≠ .error := by
  simp only [assignment] at read
  split at read
  · cases read
  · obtain ⟨found, -, rfl⟩ := Option.map_eq_some_iff.1 read
    simp [Node.branch]

theorem undef_single {node : Node} {left : Text} (read : undef c.line c.here = some (node, left)) :
    node.kind ≠ .error ∧ '\n' ∉ left := by
  simp only [undef] at read
  split at read
  · cases read
  · next name rest found =>
    split at read
    · obtain ⟨rfl, rfl⟩ := Prod.mk.inj (Option.some.inj read)
      refine ⟨by simp [Node.branch], fun member => argument_single .undef c ?_⟩
      have inside : '\n' ∈ rest := (List.dropWhile_sublist _).subset member
      have later : '\n' ∈ Text.skipSpaces (Directive.undef.argument c.here) := by
        rw [Text.name?_eq_append found]
        exact List.mem_append_right _ inside
      exact (List.dropWhile_sublist _).subset later
    · cases read

theorem statement_percent {rest : Text} (start : c.rest = '%' :: rest) :
    statement body c = directiveStatement body c := by
  simp only [statement, start]

theorem statement_other {first : Char} {rest : Text} (start : c.rest = first :: rest)
    (hash : first ≠ '#') (percent : first ≠ '%') (dot : first ≠ '.') :
    statement body c = assignmentOrRule c := by
  unfold statement
  rw [start]
  split
  · next same => exact absurd (List.cons.inj same).1 hash
  · next same => exact absurd (List.cons.inj same).1 percent
  · next same => exact absurd (List.cons.inj same).1 dot
  · rfl

/-- On what is shorter than `size` the second reader finds bodies like those that the first one does,
and stops where it does. -/
def EchoesBodies (count : Nat) (ending : Text) (size : Nat) (body body' : BodyReader) : Prop :=
  ∀ ends c, c.rest.length < size →
    Node.Like count ending (body ends c).1 (body' ends (c.recast count ending)).1 ∧
      (body' ends (c.recast count ending)).2 = (body ends c).2.recast count ending

/-- Clauses that are alike, up to one place. -/
def ClausesAgree (count : Nat) (ending : Text) (found found' : List Node × Cursor) : Prop :=
  List.Forall₂ (Node.Like count ending) found.1 found'.1 ∧ found'.2 = found.2.recast count ending

/-- A clause in front of clauses that agree. -/
theorem clause_agrees {kind : Kind} (loose : kind.isLoose = true) {stop : Cursor} {inner inner' : Node}
    {found found' : Option (List Node × Cursor)} (nodes : List Node)
    (span : (c.recast count ending).upTo (stop.recast count ending) =
      Text.endLines ending (c.upTo stop))
    (like : Node.Like count ending inner inner')
    (further : Option.Rel (ClausesAgree count ending) found found') :
    Option.Rel (ClausesAgree count ending)
      (found.map fun more =>
        (Node.branch kind c.line (c.upTo stop) (nodes ++ [inner]) :: more.1, more.2))
      (found'.map fun more =>
        (Node.branch kind (c.line + count) ((c.recast count ending).upTo (stop.recast count ending))
          (nodes.map (Node.shift count) ++ [inner']) :: more.1, more.2)) := by
  cases further with
  | none => exact .none
  | some agree =>
    refine .some ⟨.cons (.span loose (.inl span) ?_) agree.1, agree.2⟩
    exact List.rel_append (Node.likes_shift ending nodes) (.cons like .nil)

section

variable (spaces : ∀ c ∈ ending, Text.isSpace c = true)

include spaces

theorem depthAfter_recast (depth : Nat) (c : Cursor) :
    depthAfter depth (c.recast count ending).here = depthAfter depth c.here := by
  rw [Cursor.here_recast spaces, depthAfter_trails (Cursor.lineTail_spaces spaces c)]

theorem skipBlock_meets (depth : Nat) (c : Cursor) :
    Cursor.Meets count ending (skipBlock depth c) (skipBlock depth (c.recast count ending)) := by
  fun_induction skipBlock depth c with
  | case1 depth c closed =>
    rw [skipBlock_closed ((depthAfter_recast count spaces depth c).trans closed)]
    exact Cursor.lineEnd_meets spaces c
  | case2 depth c stillOpen last =>
    rw [skipBlock_last (Cursor.below_recast_last last)]
    exact Cursor.lineEnd_meets spaces c
  | case3 depth c stillOpen first rest below shorter ih =>
    have same := depthAfter_recast count spaces depth c
    have next : c.nextLine = ⟨c.line + 1, rest⟩ := by rw [Cursor.nextLine, below]
    rw [skipBlock_open (same ▸ stillOpen) (Cursor.below_recast_ne spaces (by simp [below])), same,
      Cursor.nextLine_recast spaces, next]
    exact ih

theorem errorBlock_agrees (filled : c.here ≠ []) :
    Agrees count ending (errorBlock c) (errorBlock (c.recast count ending)) := by
  have meets := skipBlock_meets count spaces 0 c
  obtain ⟨text, moves, solid⟩ := @skipBlock_filled c 0 (.inr filled)
  have rewritten := moves.rewritten spaces meets solid
  rw [← moves.upTo] at rewritten solid
  exact ⟨.span rfl rewritten .nil, meets, fun _ => solid⟩

theorem errorLine_agrees (filled : c.here ≠ []) :
    Agrees count ending (errorLine c) (errorLine (c.recast count ending)) := by
  have rewritten := @Cursor.rewritten_here ending c count spaces filled
  exact ⟨.span rfl rewritten .nil, Cursor.lineEnd_meets spaces c,
    fun _ _ _ => Cursor.here_concat filled⟩

theorem argument_recast {directive : Directive} (named : Directive.at? c.rest = some directive) :
    directive.argument (c.recast count ending).here =
      directive.argument c.here ++ c.lineTail ending := by
  rw [Cursor.here_recast spaces, here_directive named, argument_append, argument_spelling]

theorem upTo_recast {text : Text} {stop : Cursor} (moves : c.Moves text stop) :
    (c.recast count ending).upTo (stop.recast count ending) = Text.endLines ending (c.upTo stop) := by
  rw [moves.upTo, (moves.recast spaces).upTo]

/-- A line with the body below it. -/
theorem body_below (reads : ReadsBodiesPlaced body) (echoes : EchoesBodies count ending size body body')
    (ends : List Directive) (within : c.nextLine.rest.length < size) :
    Node.Like count ending (body ends c.nextLine).1 (body' ends (c.recast count ending).nextLine).1 ∧
      (body' ends (c.recast count ending).nextLine).2 =
        (body ends c.nextLine).2.recast count ending ∧
      (body ends c.nextLine).2.rest.length ≤ c.nextLine.rest.length ∧
      ∃ text, c.Moves text (body ends c.nextLine).2 := by
  obtain ⟨line, next⟩ := c.moves_nextLine
  obtain ⟨inside, -, -⟩ := reads ends c.nextLine
  obtain ⟨like, stop⟩ := echoes ends c.nextLine within
  rw [← Cursor.nextLine_recast spaces] at like stop
  refine ⟨like, stop, ?_, _, next.trans inside⟩
  rw [inside.rest, List.length_append]
  omega

theorem clauses_agree (reads : ReadsBodiesPlaced body)
    (echoes : EchoesBodies count ending size body body') {limit limit' : Nat} {before : Cursor}
    (enough : before.rest.length < limit) (enough' : before.rest.length < limit')
    (within : before.rest.length ≤ size) :
    Option.Rel (ClausesAgree count ending)
      (clauses body limit before) (clauses body' limit' (before.recast count ending)) := by
  induction limit generalizing limit' before with
  | zero => omega
  | succ limit ih =>
    obtain ⟨limit', rfl⟩ := Nat.exists_eq_succ_of_ne_zero (Nat.ne_zero_of_lt enough')
    have skipped : before.skipBlank.rest.length ≤ before.rest.length :=
      Text.length_dropWhile_le Text.isBlank before.rest
    unfold clauses
    simp only [Cursor.skipBlank_recast spaces, Cursor.at?_recast spaces]
    -- From here on only what stands behind the blanks counts.
    generalize before.skipBlank = c at skipped ⊢
    have tail := Cursor.lineTail_spaces spaces c
    have room {directive : Directive} (named : Directive.at? c.rest = some directive) :
        c.nextLine.rest.length < c.rest.length :=
      Cursor.length_nextLine_lt fun empty => by simp [empty, Directive.at?] at named
    split
    · next named =>
      have shorter := room named
      obtain ⟨like, stop, less, text, moves⟩ :=
        @body_below ending c size body body' count spaces reads echoes clauseEnds (by omega)
      have test := condition_echo c.line count tail
        (Text.trails_append (c.lineTail ending) (Directive.elseIf.argument c.here))
      rw [argument_recast count spaces named, Cursor.line_recast]
      rcases (test.alone count tail).split with ⟨none, none'⟩ | ⟨node, left, left', some, some', -, -⟩
      · simp only [none, none']
        exact .none
      · simp only [some, some', stop]
        exact clause_agrees count rfl [Node.token c.line Directive.elseIf.spelling, node]
          (upTo_recast count spaces moves) like (ih (by omega) (by omega) (by omega))
    · next named =>
      have shorter := room named
      obtain ⟨like, stop, less, text, moves⟩ :=
        @body_below ending c size body body' count spaces reads echoes [.endIf] (by omega)
      rw [argument_recast count spaces named, Cursor.line_recast, atLineEnd_trails tail (Text.trails_append _ _)]
      split
      · rw [stop]
        exact clause_agrees count rfl [Node.token c.line Directive.otherwise.spelling]
          (upTo_recast count spaces moves) like (ih (by omega) (by omega) (by omega))
      · exact .none
    · next named =>
      rw [argument_recast count spaces named, Cursor.line_recast, Cursor.within_recast spaces]
      · exact .some ⟨.cons (.same _) .nil, rfl⟩
      · exact argument_single .endIf c
    · exact .none

theorem block_agrees (reads : ReadsBodiesPlaced body)
    (echoes : EchoesBodies count ending size body body') {directive : Directive}
    (named : Directive.at? c.rest = some directive) (within : c.rest.length ≤ size) :
    Option.Rel (Agrees count ending) (block body directive c)
      (block body' directive (c.recast count ending)) := by
  have tail := Cursor.lineTail_spaces spaces c
  have header := blockHeader_trails c.line count tail directive (directive.argument c.here)
  rw [← here_directive named, ← Cursor.here_recast spaces] at header
  unfold block
  rw [Cursor.line_recast, header]
  cases blockHeader directive c.line c.here with
  | none => exact .none
  | some test =>
    have shorter : c.nextLine.rest.length < c.rest.length :=
      Cursor.length_nextLine_lt fun empty => by simp [empty, Directive.at?] at named
    obtain ⟨like, stop, less, text, moves⟩ :=
      @body_below ending c size body body' count spaces reads echoes clauseEnds (by omega)
    -- The limits are the lengths of what is left, and they differ by the endings.
    have longer := Text.length_le_endLines ending (body clauseEnds c.nextLine).2.rest
    have agree := @clauses_agree ending size body body' count spaces reads echoes
      ((body clauseEnds c.nextLine).2.rest.length + 1)
      (((body clauseEnds c.nextLine).2.recast count ending).rest.length + 1)
      (body clauseEnds c.nextLine).2 (by omega) (Nat.lt_succ_of_le longer) (by omega)
    simp only [Option.map_some, stop]
    rcases rel_split agree with ⟨none, none'⟩ | ⟨found, found', some, some', below, last⟩
    · rw [none, none']
      exact .none
    · obtain ⟨used, rest, -⟩ := laid_clauses reads some
      simp only [some, some', Option.map_some, last]
      refine .some ⟨.span rfl (.inl (upTo_recast count spaces (moves.trans rest))) ?_, ?_, ?_⟩
      · exact .cons (.same _) (.cons (.same _) (.cons like below))
      · exact Cursor.lineEnd_meets spaces found.2
      · intro unread
        cases unread

theorem lineDirective_agrees {directive : Directive} (named : Directive.at? c.rest = some directive) :
    Option.Rel (Agrees count ending) (lineDirective directive c)
      (lineDirective directive (c.recast count ending)) := by
  have tail := Cursor.lineTail_spaces spaces c
  have here := here_directive named
  have filled : c.here ≠ [] := by
    rw [here, Directive.spelling]
    simp
  have rewritten := @Cursor.rewritten_here ending c count spaces filled
  have ends := @Cursor.lineEnd_meets ending count spaces c
  have path {kind : Kind} (loose : kind.isLoose = true) (read : kind ≠ .error) :
      Option.Rel (Agrees count ending)
        ((pathDirective kind directive c.line c.here).map (·, c.lineEnd))
        ((pathDirective kind directive (c.line + count) (c.recast count ending).here).map
          (·, (c.recast count ending).lineEnd)) := by
    rw [Cursor.here_recast spaces, here] at rewritten ⊢
    rcases rel_split (pathDirective_like c.line count tail rewritten loose) with ⟨none, none'⟩ |
      ⟨node, node', some, some', like⟩
    · rw [none, none']
      exact .none
    · rw [some, some']
      exact .some ⟨like, ends, fun unread => absurd unread (pathDirective_kind some ▸ read)⟩
  unfold lineDirective
  rw [Cursor.line_recast]
  cases directive
  case error | warn | warning | message =>
    rw [Cursor.here_recast spaces, here] at rewritten ⊢
    exact .some ⟨diagnostic_like c.line count tail rewritten, ends, by simp [diagnostic, Node.branch]⟩
  case inclusion => exact path rfl (by decide)
  case search => exact path rfl (by decide)
  case undef =>
    have read := undef_echo c.line count tail (Directive.undef.argument c.here)
    rw [← here, ← Cursor.here_recast spaces] at read
    rcases read.split with ⟨none, none'⟩ | ⟨node, left, left', some, some', trails, -⟩
    · rw [none, none']
      exact .none
    · rw [some, some']
      -- An undefinition stops within its line, in front of a comment or of the ending.
      obtain ⟨kind, single⟩ := undef_single some
      exact .some ⟨.same node, Cursor.within_meets spaces single c trails,
        fun unread => absurd unread kind⟩
  all_goals exact .none

theorem assignmentOrRule_agrees (filled : c.here ≠ []) :
    Agrees count ending (assignmentOrRule c) (assignmentOrRule (c.recast count ending)) := by
  have unread := @errorLine_agrees ending c count spaces filled
  have tail := Cursor.lineTail_spaces spaces c
  have whole := Text.trails_append (c.lineTail ending) c.here
  unfold assignmentOrRule
  rw [Cursor.here_recast spaces, whole.name? tail]
  cases Text.name? c.here with
  | none => exact unread
  | some found =>
    have behind := (Text.trails_append (c.lineTail ending) found.2).skipSpaces tail
    simp only [Option.map_some, head?_trails tail behind (by decide : Text.isSpace ':' = false)]
    split
    · exact agrees_getD count (rule_agrees count spaces c) unread
    · rw [Cursor.line_recast,
        assignment_trails c.line count tail]
      refine agrees_getD count ?_ unread
      cases read : assignment c.line c.here with
      | none => exact .none
      | some node =>
        exact .some ⟨.same _, Cursor.lineEnd_meets spaces c,
          fun unread => absurd unread (assignment_kind read)⟩

theorem statement_agrees (reads : ReadsBodiesPlaced body)
    (echoes : EchoesBodies count ending size body body') {first : Char} (opens : Opens c first)
    (within : c.rest.length ≤ size) :
    Agrees count ending (statement body c) (statement body' (c.recast count ending)) := by
  obtain ⟨rest, here⟩ := opens.here
  have filled : c.here ≠ [] := by simp [here]
  have unread := @errorLine_agrees ending c count spaces filled
  have other : first ≠ '\n' := by
    rintro rfl
    exact absurd opens.solid (by decide)
  have start : c.rest = first :: (rest ++ c.below) := by
    rw [← c.here_append_below, here, List.cons_append]
  have start' : (c.recast count ending).rest = first :: Text.endLines ending (rest ++ c.below) := by
    rw [Cursor.recast, start, Text.endLines_cons other]
  by_cases hash : first = '#'
  · subst hash
    simp only [statement, start, start']
    have trails := Text.trails_append (c.lineTail ending) c.here
    refine ⟨?_, Cursor.lineEnd_meets spaces c, by simp [comment, Node.leaf]⟩
    simp only [Cursor.here_recast spaces]
    rw [Cursor.line_recast,
      comment_trails c.line count (Cursor.lineTail_spaces spaces c) trails]
    exact .same _
  by_cases percent : first = '%'
  · subst percent
    rw [statement_percent start, statement_percent start']
    simp only [directiveStatement, Cursor.at?_recast spaces]
    cases named : Directive.at? c.rest with
    | none => exact unread
    | some directive =>
      simp only []
      split
      · exact agrees_getD count (block_agrees count spaces reads echoes named within)
          (errorBlock_agrees count spaces filled)
      · exact agrees_getD count (lineDirective_agrees count spaces named) unread
  by_cases dot : first = '.'
  · subst dot
    simp only [statement, start, start']
    exact agrees_getD count (rule_agrees count spaces c) unread
  · rw [statement_other start hash percent dot, statement_other start' hash percent dot]
    exact assignmentOrRule_agrees count spaces filled

end

end BmakeZig.Source
