import BmakeZig.Proofs.Source.Append.Balance

/-! A source with more text behind its last line. What is read and stopped before the end of the source
is read the same way; only a rule and an unread span may go on behind it. -/
namespace BmakeZig

namespace Text

/-- Every line of the text is ended. -/
def Closed (text : Text) : Prop :=
  ∀ d ∈ text.getLast?, d = '\n'

theorem Closed.suffix {used rest : Text} (closed : Closed (used ++ rest)) : Closed rest := by
  intro d member
  refine closed d ?_
  rw [List.getLast?_append, Option.mem_def.1 member]
  rfl

end Text

namespace Source

variable {more : Text} {c stop : Cursor} {first : Char} {size : Nat} {body body' : BodyReader}

theorem Cursor.Moves.closed {text : Text} (moves : c.Moves text stop) (closed : Text.Closed c.rest) :
    Text.Closed stop.rest := by
  rw [moves.rest] at closed
  exact closed.suffix

namespace Cursor

/-- The place in the source with more text behind it. -/
def extend (more : Text) (c : Cursor) : Cursor :=
  ⟨c.line, c.rest ++ more⟩

theorem line_extend (more : Text) (c : Cursor) : (c.extend more).line = c.line :=
  rfl

/-- A line that is ended is there with its end. -/
theorem below_ne_nil (closed : Text.Closed c.rest) (filled : c.rest ≠ []) : c.below ≠ [] := by
  intro last
  rcases c.last_or_faces with ⟨_, whole⟩ | ⟨rest, below, _⟩
  · have ended := closed (c.rest.getLast filled) (List.getLast?_eq_some_getLast filled)
    exact c.newline_not_mem_here (whole ▸ ended ▸ List.getLast_mem filled)
  · simp [below] at last

section

variable (ended : c.below ≠ [])

include ended

theorem extend_line :
    (c.extend more).here = c.here ∧ (c.extend more).below = c.below ++ more := by
  rcases c.last_or_faces with ⟨last, _⟩ | ⟨rest, below, faces⟩
  · exact absurd last ended
  · have further : (c.extend more).Faces c.here (rest ++ more) :=
      ⟨by simp [extend, faces.unread], faces.single⟩
    exact ⟨further.here, by rw [further.below, below, List.cons_append]⟩

theorem nextLine_extend : (c.extend more).nextLine = c.nextLine.extend more := by
  obtain ⟨-, below⟩ := @extend_line more c ended
  obtain ⟨d, rest, found⟩ := List.exists_cons_of_ne_nil ended
  rw [nextLine, below, found, nextLine, found]
  rfl

theorem lineEnd_extend : (c.extend more).lineEnd = c.lineEnd.extend more := by
  rw [lineEnd, (extend_line ended).2]
  rfl

theorem within_extend (left : Text) : (c.extend more).within left = (c.within left).extend more := by
  rw [within, (extend_line ended).2, ← List.append_assoc]
  rfl

end

theorem upTo_extend (c stop : Cursor) : (c.extend more).upTo (stop.extend more) = c.upTo stop :=
  Text.consumed_append_both c.rest stop.rest more

theorem skipBlank_extend (filled : c.skipBlank.rest ≠ []) :
    (c.extend more).skipBlank = c.skipBlank.extend more := by
  have split : c.rest = c.rest.takeWhile Text.isBlank ++ c.skipBlank.rest :=
    List.takeWhile_append_dropWhile.symm
  obtain ⟨d, rest, unread⟩ := List.exists_cons_of_ne_nil filled
  have stops : ∀ e ∈ (c.skipBlank.rest ++ more).head?, Text.isBlank e = false := by
    obtain ⟨first, solid, behind, here⟩ := opens_skipBlank filled
    have same : first = d := by
      have start := c.skipBlank.here_append_below
      rw [here, unread] at start
      exact (List.cons.inj start).1
    simpa [unread, ← same] using solid
  have blanks : ∀ e ∈ c.rest.takeWhile Text.isBlank, Text.isBlank e = true :=
    fun e member => List.mem_takeWhile_imp member
  have whole : (c.extend more).rest =
      c.rest.takeWhile Text.isBlank ++ (c.skipBlank.rest ++ more) := by
    rw [← List.append_assoc, ← split]
    rfl
  rw [skipBlank, whole, Text.takeWhile_append_stop blanks stops,
    Text.dropWhile_append_stop blanks stops]
  rfl

end Cursor

theorem Opens.extend (opens : Opens c first) (ended : c.below ≠ []) : Opens (c.extend more) first :=
  ⟨opens.solid, by rw [(Cursor.extend_line ended).1]; exact opens.here⟩

theorem Opens.at?_extend (opens : Opens c first) (ended : c.below ≠ []) :
    Directive.at? (c.extend more).rest = Directive.at? c.rest := by
  rw [← (opens.extend ended).at?_here, (Cursor.extend_line ended).1, opens.at?_here]

/-! Rules. -/

/-- Where no line has anything on it, all is blank. -/
theorem blank_of_filledLine (nothing : filledLine c = none) : c.skipBlank.rest = [] := by
  refine List.dropWhile_eq_nil_iff.2 ?_
  fun_induction filledLine c with
  | case1 => cases nothing
  | case2 c blank last =>
    simp only [Bool.not_eq_true', Bool.not_eq_false, List.all_eq_true] at blank
    rw [← c.here_append_below, last, List.append_nil]
    exact blank
  | case3 c blank d rest below shorter ih =>
    simp only [Bool.not_eq_true', Bool.not_eq_false, List.all_eq_true] at blank
    rcases c.last_or_faces with ⟨last, _⟩ | ⟨rest', below', _⟩
    · simp [below] at last
    · obtain ⟨rfl, rfl⟩ := List.cons.inj (below.symm.trans below')
      intro e member
      rw [← c.here_append_below, below, List.mem_append, List.mem_cons] at member
      rcases member with inside | rfl | later
      · exact blank e inside
      · decide
      · exact ih nothing e later

theorem filledLine_extend (closed : Text.Closed c.rest) {filled : Cursor}
    (found : filledLine c = some filled) :
    filledLine (c.extend more) = some (filled.extend more) ∧ filled.rest ≠ [] ∧
      Text.Closed filled.rest := by
  fun_induction filledLine c with
  | case1 c solid =>
    obtain rfl := Option.some.inj found
    have filled : c.rest ≠ [] := fun empty => by simp [Cursor.here, empty] at solid
    refine ⟨?_, filled, closed⟩
    rw [filledLine, (Cursor.extend_line (Cursor.below_ne_nil closed filled)).1, if_pos solid]
  | case2 => cases found
  | case3 c blank d rest below shorter ih =>
    simp only [Bool.not_eq_true', Bool.not_eq_false] at blank
    have ended : c.below ≠ [] := by simp [below]
    have next : c.nextLine = ⟨c.line + 1, rest⟩ := by rw [Cursor.nextLine, below]
    obtain ⟨line, moves⟩ := c.moves_nextLine
    rw [next] at moves
    obtain ⟨here, below⟩ := @Cursor.extend_line more c ended
    rw [filledLine_blank (here ▸ blank) (by simp [below, ended]), Cursor.nextLine_extend ended, next]
    exact ih (moves.closed closed) found

theorem bodyLine_extend (closed : Text.Closed c.rest)
    (going : bodyLine c ≠ none ∨ c.skipBlank.rest ≠ []) :
    bodyLine (c.extend more) = (bodyLine c).map (Cursor.extend more) := by
  cases found : filledLine c with
  | none =>
    exfalso
    have spent := blank_of_filledLine found
    simp [bodyLine, found, spent] at going
  | some filled =>
    obtain ⟨again, solid, -⟩ := @filledLine_extend more c closed filled found
    obtain ⟨d, rest, unread⟩ := List.exists_cons_of_ne_nil solid
    have same : (filled.extend more).rest = d :: (rest ++ more) := by
      rw [Cursor.extend, unread, List.cons_append]
    simp only [bodyLine, found, again, Option.filter_some, unread, same]
    split <;> simp_all

theorem bodyEntries_extend (closed : Text.Closed c.rest)
    (going : (bodyEntries c).2.skipBlank.rest ≠ []) :
    bodyEntries (c.extend more) = ((bodyEntries c).1, (bodyEntries c).2.extend more) := by
  fun_induction bodyEntries c with
  | case1 c finished =>
    have line := @bodyLine_extend more c closed (.inr going)
    rw [finished] at line
    rw [bodyEntries]
    split
    · rfl
    · next found => cases line.symm.trans found
  | case2 c filled found shorter rest ih =>
    have line := @bodyLine_extend more c closed (.inl (by simp [found]))
    rw [found] at line
    obtain ⟨-, solid, kept⟩ := @filledLine_extend more c closed filled
      (Option.filter_eq_some_iff.1 found).1
    have ended := Cursor.below_ne_nil kept solid
    obtain ⟨ending, moves⟩ := filled.moves_nextLine
    have further := ih (moves.closed kept) going
    rw [← Cursor.nextLine_extend ended] at further
    rw [bodyEntries]
    split
    · next nothing => cases line.symm.trans nothing
    · next again =>
      obtain rfl := Option.some.inj (again.symm.trans line)
      simp only [further, (Cursor.extend_line ended).1]
      rfl

/-- A rule that something follows. -/
theorem rule_extend (closed : Text.Closed c.rest) (ended : c.below ≠ [])
    (going : ∀ found, rule c = some found → found.2.skipBlank.rest ≠ []) :
    rule (c.extend more) = (rule c).map fun found => (found.1, found.2.extend more) := by
  obtain ⟨line, moves⟩ := c.moves_nextLine
  unfold rule at going ⊢
  rw [(Cursor.extend_line ended).1, Cursor.line_extend]
  cases header : ruleHeader c.line c.here with
  | none => rfl
  | some nodes =>
    have further := going _ (by rw [header]; rfl)
    rw [ruleBody_eq] at further
    have entries := @bodyEntries_extend more c.nextLine (moves.closed closed) further
    simp only [Option.map_some, Cursor.nextLine_extend ended, ruleBody_eq, entries,
      Cursor.upTo_extend]
    rfl

/-! Blocks. -/

theorem skipBlock_extend {depth : Nat} (going : (skipBlock depth c).rest ≠ []) :
    skipBlock depth (c.extend more) = (skipBlock depth c).extend more := by
  fun_induction skipBlock depth c with
  | case1 depth c spent =>
    rw [skipBlock_closed ((Cursor.extend_line going).1 ▸ spent), Cursor.lineEnd_extend going]
  | case2 depth c stillOpen last => exact absurd last going
  | case3 depth c stillOpen d rest below shorter ih =>
    have ended : c.below ≠ [] := by simp [below]
    have next : c.nextLine = ⟨c.line + 1, rest⟩ := by rw [Cursor.nextLine, below]
    obtain ⟨here, more_below⟩ := @Cursor.extend_line more c ended
    rw [skipBlock_open (here ▸ stillOpen) (by simp [more_below, ended]), here,
      Cursor.nextLine_extend ended, next]
    exact ih going

/-- On what is shorter than `size`, bodies that something follows are read the same way. -/
def ExtendsBodies (more : Text) (size : Nat) (body body' : BodyReader) : Prop :=
  ∀ ends c, Text.Flush c.rest → Text.Closed c.rest → c.rest.length < size →
    (body ends c).2.rest ≠ [] →
      body' ends (c.extend more) = ((body ends c).1, (body ends c).2.extend more)

/-- At the end of the source no block is over. -/
theorem skipBlock_over {depth : Nat} (spent : c.rest = []) : (skipBlock depth c).rest = [] := by
  have last : c.below = [] := by rw [Cursor.below, spent]; rfl
  rw [skipBlock_last last]
  exact last

section

variable (reads : ReadsBodiesPlaced body) (balances : ReadsBalanced body)
  (extends' : ExtendsBodies more size body body')

include reads balances extends'

/-- A body below a line, when the block that it is in ends. -/
theorem body_extend {ends : List Directive} (closes : .endIf ∈ ends) (flush : Text.Flush c.rest)
    (closed : Text.Closed c.rest) (ended : c.below ≠ []) (fits : c.rest.length ≤ size)
    (going : (skipBlock 1 c.nextLine).rest ≠ []) :
    body' ends (c.extend more).nextLine =
        ((body ends c.nextLine).1, (body ends c.nextLine).2.extend more) ∧
      (skipBlock 1 (body ends c.nextLine).2).rest ≠ [] ∧
      (body ends c.nextLine).2.rest.length ≤ c.nextLine.rest.length ∧
      Text.Flush (body ends c.nextLine).2.rest ∧ Text.Closed (body ends c.nextLine).2.rest := by
  obtain ⟨line, next⟩ := c.moves_nextLine
  obtain ⟨moves, -, -⟩ := reads ends c.nextLine
  have flush := next.flush flush
  have closed := next.closed closed
  have shorter : c.nextLine.rest.length < c.rest.length :=
    Cursor.length_nextLine_lt fun empty => ended (by rw [Cursor.below, empty]; rfl)
  rw [balances ends c.nextLine closes flush 1 (by simp)] at going
  have left : (body ends c.nextLine).2.rest ≠ [] := fun spent => going (skipBlock_over spent)
  refine ⟨?_, going, ?_, moves.flush flush, moves.closed closed⟩
  · rw [Cursor.nextLine_extend ended]
    exact extends' ends c.nextLine flush closed (by omega) left
  · rw [moves.rest, List.length_append]
    omega

theorem clauses_extend {limit limit' : Nat} {before : Cursor} (flush : Text.Flush before.rest)
    (closed : Text.Closed before.rest) (enough : before.rest.length < limit)
    (enough' : before.rest.length < limit') (fits : before.rest.length ≤ size)
    (going : (skipBlock 1 before).rest ≠ []) :
    clauses body' limit' (before.extend more) =
      (clauses body limit before).map fun found => (found.1, found.2.extend more) := by
  induction limit generalizing limit' before with
  | zero => omega
  | succ limit ih =>
    obtain ⟨limit', rfl⟩ := Nat.exists_eq_succ_of_ne_zero (Nat.ne_zero_of_lt enough')
    have skipped : before.skipBlank.rest.length ≤ before.rest.length :=
      Text.length_dropWhile_le Text.isBlank before.rest
    rw [balanced_skipBlank before 1 (by simp)] at going
    have filled : before.skipBlank.rest ≠ [] := fun spent => going (skipBlock_over spent)
    have flush := before.moves_skipBlank.flush flush
    have closed := before.moves_skipBlank.closed closed
    obtain ⟨first, opens⟩ := opens_skipBlank filled
    have ended := Cursor.below_ne_nil closed filled
    unfold clauses
    simp only [Cursor.skipBlank_extend filled, opens.at?_extend ended]
    generalize before.skipBlank = c at skipped going filled flush closed opens ended ⊢
    obtain ⟨here, -⟩ := @Cursor.extend_line more c ended
    rw [here, Cursor.line_extend]
    -- The block is still open below a line that starts another clause, and behind its body.
    have clause {directive : Directive} (named : Directive.at? c.rest = some directive)
        (plain : directive.opensBlock = false ∧ directive ≠ .endIf) {ends : List Directive}
        (closes : .endIf ∈ ends) :
        body' ends (c.extend more).nextLine =
            ((body ends c.nextLine).1, (body ends c.nextLine).2.extend more) ∧
          clauses body' limit' ((body ends c.nextLine).2.extend more) =
            (clauses body limit (body ends c.nextLine).2).map fun found =>
              (found.1, found.2.extend more) := by
      have line := opens.depthAfter_plain fun other same =>
        Option.some.inj (named.symm.trans same) ▸ plain
      rw [balanced_nextLine line 1 (by simp)] at going
      have shorter := Cursor.length_nextLine_lt filled
      obtain ⟨inner, later, less, flush, closed⟩ :=
        body_extend reads balances extends' closes flush closed ended (by omega) going
      exact ⟨inner, ih flush closed (by omega) (by omega) (by omega) later⟩
    split
    · next named =>
      obtain ⟨inner, rest⟩ := @clause .elseIf named (by decide) clauseEnds (by decide)
      split
      · rfl
      · simp only [inner, rest, Cursor.upTo_extend, Option.map_map]
        rfl
    · next named =>
      obtain ⟨inner, rest⟩ := @clause .otherwise named (by decide) [.endIf] (by decide)
      split
      · simp only [inner, rest, Cursor.upTo_extend, Option.map_map]
        rfl
      · rfl
    · rw [Cursor.within_extend ended]
      rfl
    · rfl

theorem block_extend {directive : Directive} (named : Directive.at? c.rest = some directive)
    (starts : directive.opensBlock = true) (flush : Text.Flush c.rest) (closed : Text.Closed c.rest)
    (ended : c.below ≠ []) (fits : c.rest.length ≤ size) (going : (skipBlock 0 c).rest ≠ []) :
    block body' directive (c.extend more) =
      (block body directive c).map fun found => (found.1, found.2.extend more) := by
  have opening := (opens_of_at? named).depthAfter_opening named starts 0
  rw [skipBlock_next (by simp [opening]), opening] at going
  obtain ⟨here, -⟩ := @Cursor.extend_line more c ended
  unfold block
  rw [here, Cursor.line_extend]
  split
  · rfl
  · next test _ =>
    obtain ⟨inner, later, less, flush, closed⟩ :=
      @body_extend more c size body body' reads balances extends' clauseEnds (by decide) flush closed
        ended fits going
    have shorter := Cursor.length_nextLine_lt fun empty => ended (by rw [Cursor.below, empty]; rfl)
    have longer : (body clauseEnds c.nextLine).2.rest.length ≤
        ((body clauseEnds c.nextLine).2.extend more).rest.length := by
      simp [Cursor.extend]
    have rest := @clauses_extend more size body body' reads balances extends'
      ((body clauseEnds c.nextLine).2.rest.length + 1)
      (((body clauseEnds c.nextLine).2.extend more).rest.length + 1)
      (body clauseEnds c.nextLine).2 flush closed (by omega) (by omega) (by omega) later
    simp only [inner, rest]
    cases read : clauses body ((body clauseEnds c.nextLine).2.rest.length + 1)
        (body clauseEnds c.nextLine).2 with
    | none => rfl
    | some found =>
      -- The end of the block is on a line that is ended.
      rw [clauses_balanced reads balances flush read] at later
      simp only [Option.map_some, Cursor.upTo_extend, Cursor.lineEnd_extend later]

end

theorem clauses_ended (reads : ReadsBodiesPlaced body) {limit : Nat} {before last : Cursor}
    {nodes : List Node} (closed : Text.Closed before.rest)
    (read : clauses body limit before = some (nodes, last)) : last.below ≠ [] := by
  induction limit generalizing before nodes last with
  | zero => cases read
  | succ limit ih =>
    have closed := before.moves_skipBlank.closed closed
    simp only [clauses] at read
    generalize before.skipBlank = c at closed read
    have inside (ends : List Directive) : Text.Closed (body ends c.nextLine).2.rest := by
      obtain ⟨line, next⟩ := c.moves_nextLine
      exact (next.trans (reads ends c.nextLine).1).closed closed
    split at read
    · split at read
      · cases read
      · obtain ⟨⟨more, final⟩, rest, same⟩ := Option.map_eq_some_iff.1 read
        obtain ⟨rfl, rfl⟩ := Prod.mk.inj same
        exact ih (inside clauseEnds) rest
    · split at read
      · obtain ⟨⟨more, final⟩, rest, same⟩ := Option.map_eq_some_iff.1 read
        obtain ⟨rfl, rfl⟩ := Prod.mk.inj same
        exact ih (inside [.endIf]) rest
      · cases read
    · next named =>
      obtain ⟨rfl, rfl⟩ := Prod.mk.inj (Option.some.inj read)
      rw [(c.here_within (argument_single .endIf c)).2]
      exact Cursor.below_ne_nil closed fun empty => by simp [empty, Directive.at?] at named
    · cases read

/-- The line on which a block ends is ended. -/
theorem block_ended (reads : ReadsBodiesPlaced body) {directive : Directive} {found : Node × Cursor}
    (closed : Text.Closed c.rest) (read : block body directive c = some found) :
    found.2.rest ≠ [] := by
  simp only [block] at read
  split at read
  · cases read
  · obtain ⟨⟨more, last⟩, inside, rfl⟩ := Option.map_eq_some_iff.1 read
    obtain ⟨line, next⟩ := c.moves_nextLine
    exact clauses_ended reads ((next.trans (reads clauseEnds c.nextLine).1).closed closed) inside

/-! Statements. -/

theorem lineDirective_extend {directive : Directive} (ended : c.below ≠ []) :
    lineDirective directive (c.extend more) =
      (lineDirective directive c).map fun found => (found.1, found.2.extend more) := by
  obtain ⟨here, -⟩ := @Cursor.extend_line more c ended
  unfold lineDirective
  rw [here, Cursor.lineEnd_extend ended, Cursor.line_extend]
  cases directive <;> simp [Function.comp_def, Cursor.within_extend ended]

theorem errorLine_extend (ended : c.below ≠ []) :
    errorLine (c.extend more) = ((errorLine c).1, (errorLine c).2.extend more) := by
  unfold errorLine
  rw [(Cursor.extend_line ended).1, Cursor.lineEnd_extend ended]
  rfl

theorem errorBlock_extend (going : (skipBlock 0 c).rest ≠ []) :
    errorBlock (c.extend more) = ((errorBlock c).1, (errorBlock c).2.extend more) := by
  simp only [errorBlock, skipBlock_extend going, Cursor.upTo_extend]
  rfl

theorem extend_getD {read read' : Option (Node × Cursor)} {fallback fallback' : Node × Cursor}
    (same : read' = read.map fun found => (found.1, found.2.extend more))
    (unread : fallback' = (fallback.1, fallback.2.extend more)) :
    read'.getD fallback' = ((read.getD fallback).1, (read.getD fallback).2.extend more) := by
  rw [same, unread]
  cases read <;> rfl

/-- Only a rule and an unread span can reach the end of the source and go on behind it. -/
def Settled (found : Node × Cursor) : Prop :=
  found.2.skipBlank.rest ≠ [] ∨ found.1.kind ≠ .error ∧ found.1.kind ≠ .rule

theorem Cursor.rest_ne_nil (going : c.skipBlank.rest ≠ []) : c.rest ≠ [] := by
  intro empty
  simp [Cursor.skipBlank, empty] at going

theorem rule_getD_extend (closed : Text.Closed c.rest) (ended : c.below ≠ [])
    (settled : Settled ((rule c).getD (errorLine c))) :
    (rule (c.extend more)).getD (errorLine (c.extend more)) =
      (((rule c).getD (errorLine c)).1, ((rule c).getD (errorLine c)).2.extend more) := by
  refine extend_getD (rule_extend closed ended fun found read => ?_) (errorLine_extend ended)
  rw [read] at settled
  obtain ⟨header, -, rfl⟩ := Option.map_eq_some_iff.1 read
  exact settled.resolve_right fun other => other.2 rfl

theorem block_getD_extend (reads : ReadsBodiesPlaced body) (balances : ReadsBalanced body)
    (extends' : ExtendsBodies more size body body') {directive : Directive}
    (named : Directive.at? c.rest = some directive) (starts : directive.opensBlock = true)
    (flush : Text.Flush c.rest) (closed : Text.Closed c.rest) (ended : c.below ≠ [])
    (fits : c.rest.length ≤ size)
    (settled : Settled ((block body directive c).getD (errorBlock c))) :
    (block body' directive (c.extend more)).getD (errorBlock (c.extend more)) =
      (((block body directive c).getD (errorBlock c)).1,
        ((block body directive c).getD (errorBlock c)).2.extend more) := by
  -- Read or not, the block stops where it ends, and that is before the end of the source.
  have going : (skipBlock 0 c).rest ≠ [] := by
    rw [← block_balanced reads balances flush named starts]
    rcases settled with left | ⟨read, -⟩
    · exact Cursor.rest_ne_nil left
    · cases found : block body directive c with
      | none =>
        rw [found] at read
        exact absurd rfl read
      | some _ => exact block_ended reads closed found
  exact extend_getD (block_extend reads balances extends' named starts flush closed ended fits going)
    (errorBlock_extend going)

theorem statement_extend (reads : ReadsBodiesPlaced body) (balances : ReadsBalanced body)
    (extends' : ExtendsBodies more size body body') (flush : Text.Flush c.rest)
    (closed : Text.Closed c.rest) (opens : Opens c first) (fits : c.rest.length ≤ size)
    (settled : Settled (statement body c)) :
    statement body' (c.extend more) =
      ((statement body c).1, (statement body c).2.extend more) := by
  obtain ⟨rest, here⟩ := opens.here
  have start : c.rest = first :: (rest ++ c.below) := by
    rw [← c.here_append_below, here, List.cons_append]
  have start' : (c.extend more).rest = first :: (rest ++ c.below ++ more) := by
    rw [Cursor.extend, start, List.cons_append]
  have ended := Cursor.below_ne_nil closed (by simp [start])
  have line := @Cursor.extend_line more c ended
  have unread := @errorLine_extend more c ended
  by_cases hash : first = '#'
  · subst hash
    simp only [statement, start, start', line.1, Cursor.lineEnd_extend ended]
    rfl
  by_cases percent : first = '%'
  · subst percent
    rw [statement_percent start] at settled ⊢
    rw [statement_percent start']
    unfold directiveStatement at settled ⊢
    rw [opens.at?_extend ended]
    cases named : Directive.at? c.rest with
    | none => exact unread
    | some directive =>
      simp only [named] at settled ⊢
      split
      · next starts =>
        rw [if_pos starts] at settled
        exact block_getD_extend reads balances extends' named starts flush closed ended fits settled
      · exact extend_getD (lineDirective_extend ended) unread
  by_cases dot : first = '.'
  · subst dot
    simp only [statement, start] at settled
    simp only [statement, start, start']
    exact rule_getD_extend closed ended settled
  · rw [statement_other start hash percent dot] at settled ⊢
    rw [statement_other start' hash percent dot]
    unfold assignmentOrRule at settled ⊢
    rw [line.1]
    cases named : Text.name? c.here with
    | none => exact unread
    | some found =>
      simp only [named] at settled ⊢
      split
      · next always =>
        rw [if_pos always] at settled
        exact rule_getD_extend closed ended settled
      · refine extend_getD ?_ unread
        rw [Cursor.lineEnd_extend ended, Option.map_map]
        rfl

end Source

end BmakeZig
