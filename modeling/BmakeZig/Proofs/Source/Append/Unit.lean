import BmakeZig.Proofs.Source.Append.Extend
import BmakeZig.Proofs.Text.Lines

/-! Sources one behind the other. A source whose lines are all ended and whose last statement is settled is
read the same way whatever follows, and what follows is read as if it stood alone. -/
namespace BmakeZig.Source

variable {more : Text} {c : Cursor}

/-- The statement in the source with more text behind it. -/
def Span.extend (more : Text) (span : Span) : Span :=
  ⟨span.node, span.start.extend more, span.stop.extend more⟩

theorem joinErrors_extend (found : List Span) :
    joinErrors (found.map (Span.extend more)) = (joinErrors found).map (Span.extend more) := by
  induction found with
  | nil => rfl
  | cons span rest ih =>
    rw [List.map_cons, joinErrors, joinErrors, ih]
    cases joinErrors rest with
    | nil => rfl
    | cons next others =>
      simp only [List.map_cons]
      have kinds : (Span.extend more span).node = span.node ∧ (Span.extend more next).node = next.node :=
        ⟨rfl, rfl⟩
      rw [kinds.1, kinds.2]
      split
      · have span : (Span.extend more span).start.upTo (Span.extend more next).stop =
            span.start.upTo next.stop := Cursor.upTo_extend _ _
        rw [span]
        rfl
      · rfl

theorem nodes_extend (found : List Span) :
    (found.map (Span.extend more)).map (·.node) = found.map (·.node) := by
  rw [List.map_map]
  rfl

/-- A body that something follows. -/
theorem bodyOf_extend (found : List Span × Cursor) :
    bodyOf (c.extend more) (found.1.map (Span.extend more), found.2.extend more) =
      ((bodyOf c found).1, (bodyOf c found).2.extend more) := by
  simp only [bodyOf, joinErrors_extend, nodes_extend, Cursor.upTo_extend]
  rfl

theorem bodies_balanced (limit : Nat) : ReadsBalanced (bodies limit) :=
  fun _ start closes flush => spans_balanced limit closes start flush

theorem bodies_extend {limit limit' size : Nat}
    (each : ∀ {ends start}, Text.Flush start.rest → Text.Closed start.rest → start.rest.length < size →
      (spans limit ends start).2.rest ≠ [] → spans limit' ends (start.extend more) =
        ((spans limit ends start).1.map (Span.extend more), (spans limit ends start).2.extend more)) :
    ExtendsBodies more size (bodies limit) (bodies limit') := by
  intro ends start flush closed fits left
  rw [bodies, each flush closed fits left]
  exact bodyOf_extend (spans limit ends start)

/-- One statement that is settled, in front of any others. -/
theorem spans_extend_going {limit limit' : Nat} {ends : List Directive} (flush : Text.Flush c.rest)
    (closed : Text.Closed c.rest)
    (extends' : ExtendsBodies more c.skipBlank.rest.length (bodies limit) (bodies limit'))
    (going : ¬(c.skipBlank.rest = [] ∨ (Directive.at? c.skipBlank.rest).any (ends.contains ·)))
    (settled : Settled (statement (bodies limit) c.skipBlank)) :
    spans (limit' + 1) ends (c.extend more) =
      (Span.extend more ⟨(statement (bodies limit) c.skipBlank).1, c.skipBlank,
          (statement (bodies limit) c.skipBlank).2⟩ ::
        (spans limit' ends ((statement (bodies limit) c.skipBlank).2.extend more)).1,
        (spans limit' ends ((statement (bodies limit) c.skipBlank).2.extend more)).2) := by
  have filled : c.skipBlank.rest ≠ [] := fun spent => going (.inl spent)
  obtain ⟨first, opens⟩ := opens_skipBlank filled
  have flush := c.moves_skipBlank.flush flush
  have closed := c.moves_skipBlank.closed closed
  have ended := Cursor.below_ne_nil closed filled
  have same := statement_extend (bodies_placed limit) (bodies_balanced limit) extends' flush closed opens
    (Nat.le_refl _) settled
  have skipped := @Cursor.skipBlank_extend more c filled
  have still : ¬((c.extend more).skipBlank.rest = [] ∨
      (Directive.at? (c.extend more).skipBlank.rest).any (ends.contains ·)) := by
    rw [skipped, opens.at?_extend ended]
    simpa [Cursor.extend, filled] using going
  rw [spans_going still, skipped, same]
  rfl

/-- Statements up to a place that something follows. -/
theorem spans_extend {limit limit' : Nat} {ends : List Directive} (flush : Text.Flush c.rest)
    (closed : Text.Closed c.rest) (enough : c.rest.length < limit) (enough' : c.rest.length < limit')
    (going : (spans limit ends c).2.rest ≠ []) :
    spans limit' ends (c.extend more) =
      ((spans limit ends c).1.map (Span.extend more), (spans limit ends c).2.extend more) := by
  induction limit generalizing limit' ends c with
  | zero => omega
  | succ limit ih =>
    obtain ⟨limit', rfl⟩ := Nat.exists_eq_succ_of_ne_zero (Nat.ne_zero_of_lt enough')
    have skipped : c.skipBlank.rest.length ≤ c.rest.length :=
      Text.length_dropWhile_le Text.isBlank c.rest
    have extends' : ExtendsBodies more c.skipBlank.rest.length (bodies limit) (bodies limit') :=
      bodies_extend fun flush closed fits left => ih flush closed (by omega) (by omega) left
    by_cases stops : c.skipBlank.rest = [] ∨ (Directive.at? c.skipBlank.rest).any (ends.contains ·)
    · rw [spans_stops (Nat.succ_ne_zero limit) stops] at going ⊢
      obtain ⟨first, opens⟩ := opens_skipBlank going
      have ended := Cursor.below_ne_nil (c.moves_skipBlank.closed closed) going
      have skipped := @Cursor.skipBlank_extend more c going
      rw [spans_stops (Nat.succ_ne_zero limit'), skipped]
      · rfl
      · rw [skipped, opens.at?_extend ended]
        exact .inr (stops.resolve_left going)
    · rw [spans_going stops] at going ⊢
      obtain ⟨first, opens⟩ := opens_skipBlank fun spent => stops (.inl spent)
      have passes := statement_passes (bodies_placed limit) opens
      have shorter := passes.shorter
      have settled : Settled (statement (bodies limit) c.skipBlank) := by
        refine .inl fun spent => going ?_
        rw [spans_stops (by omega) (.inl spent)]
        exact spent
      obtain ⟨behind, moves, -⟩ := passes.span
      have way := c.moves_skipBlank.trans moves
      have rest := @ih _ limit' ends (way.flush flush) (way.closed closed) (by omega) (by omega) going
      rw [Nat.succ_eq_add_one, spans_extend_going flush closed extends' stops settled, rest]
      rfl

/-! Behind the last statement. -/

theorem Cursor.Moves.lines {text : Text} {stop : Cursor} (moves : c.Moves text stop) :
    stop.line + stop.rest.count '\n' = c.line + c.rest.count '\n' := by
  rw [moves.line, moves.rest, List.count_append, Nat.add_assoc]

theorem skipBlank_behind (spent : c.skipBlank.rest = []) :
    (c.extend more).skipBlank = Cursor.skipBlank ⟨c.line + c.rest.count '\n', more⟩ := by
  have blank : ∀ d ∈ c.rest, Text.isBlank d = true := List.dropWhile_eq_nil_iff.1 spent
  simp only [Cursor.skipBlank, Cursor.extend, List.takeWhile_append_of_pos blank,
    List.dropWhile_append_of_pos blank, List.count_append, Nat.add_assoc]

/-- The statements of a source in front of those of another one. -/
theorem spans_append {limit limit' : Nat} (flush : Text.Flush c.rest) (closed : Text.Closed c.rest)
    (enough : c.rest.length < limit) (enough' : c.rest.length + more.length < limit')
    (settled : ∀ span ∈ (spans limit [] c).1.getLast?,
      span.node.kind ≠ .error ∧ span.node.kind ≠ .rule) :
    ∃ left, more.length < left ∧ (spans limit' [] (c.extend more)).1 =
      (spans limit [] c).1.map (Span.extend more) ++
        (spans left [] ⟨c.line + c.rest.count '\n', more⟩).1 := by
  induction limit generalizing limit' c with
  | zero => omega
  | succ limit ih =>
    obtain ⟨limit', rfl⟩ := Nat.exists_eq_succ_of_ne_zero (Nat.ne_zero_of_lt enough')
    have skipped : c.skipBlank.rest.length ≤ c.rest.length :=
      Text.length_dropWhile_le Text.isBlank c.rest
    by_cases spent : c.skipBlank.rest = []
    · refine ⟨limit' + 1, by omega, ?_⟩
      rw [spans_stops (Nat.succ_ne_zero limit) (.inl spent),
        spans_skipBlank (Nat.succ_ne_zero limit') [] (skipBlank_behind spent)]
      rfl
    · have going : ¬(c.skipBlank.rest = [] ∨
          (Directive.at? c.skipBlank.rest).any (([] : List Directive).contains ·)) := by
        simpa using spent
      have extends' : ExtendsBodies more c.skipBlank.rest.length (bodies limit) (bodies limit') :=
        bodies_extend fun flush closed fits left =>
          spans_extend flush closed (by omega) (by omega) left
      rw [spans_going going] at settled ⊢
      obtain ⟨first, opens⟩ := opens_skipBlank spent
      have passes := statement_passes (bodies_placed limit) opens
      have shorter := passes.shorter
      obtain ⟨behind, moves, -⟩ := passes.span
      have way := c.moves_skipBlank.trans moves
      -- Only the last statement needs to be settled by its kind.
      have own : Settled (statement (bodies limit) c.skipBlank) := by
        by_cases last : (statement (bodies limit) c.skipBlank).2.skipBlank.rest = []
        · rw [spans_stops (by omega) (.inl last)] at settled
          exact .inr (settled _ rfl)
        · exact .inl last
      obtain ⟨left, room, rest⟩ := @ih _ limit' (way.flush flush) (way.closed closed) (by omega)
        (by omega) fun span member => settled span (by rw [List.getLast?_cons, Option.mem_def.1 member]; rfl)
      refine ⟨left, room, ?_⟩
      rw [way.lines] at rest
      rw [Nat.succ_eq_add_one, spans_extend_going flush closed extends' going own, rest]
      rfl

theorem joinErrors_ne_nil {found : List Span} (filled : found ≠ []) : joinErrors found ≠ [] := by
  obtain ⟨span, rest, rfl⟩ := List.exists_cons_of_ne_nil filled
  rw [joinErrors]
  split
  · simp
  · split <;> simp

/-- A statement that could be read keeps unread spans before it and behind it apart. -/
theorem joinErrors_append {left right : List Span}
    (readable : ∀ span ∈ left.getLast?, span.node.kind ≠ .error) :
    joinErrors (left ++ right) = joinErrors left ++ joinErrors right := by
  induction left with
  | nil => rfl
  | cons span rest ih =>
    rw [List.cons_append, joinErrors]
    cases rest with
    | nil =>
      have other : span.node.kind ≠ .error := readable span rfl
      rw [List.nil_append]
      split
      · next nothing => rw [nothing]; rfl
      · next next others found =>
        rw [if_neg fun both => other both.1, found]
        rfl
    | cons next rest =>
      rw [ih readable, joinErrors.eq_2 span]
      obtain ⟨joined, others, found⟩ := List.exists_cons_of_ne_nil
        (joinErrors_ne_nil (List.cons_ne_nil next rest))
      rw [found, List.cons_append]
      simp only []
      split <;> rfl

/-- Joining keeps the kind of the last statement. -/
theorem joinErrors_last (found : List Span) :
    (joinErrors found).getLast?.map (·.node.kind) = found.getLast?.map (·.node.kind) := by
  induction found with
  | nil => rfl
  | cons span rest ih =>
    rw [joinErrors]
    split
    · next nothing =>
      have empty : rest = [] := by
        by_contra filled
        exact joinErrors_ne_nil filled nothing
      rw [empty]
    · next next others found =>
      have filled : rest ≠ [] := fun empty => by simp [empty, joinErrors] at found
      rw [List.getLast?_cons_of_ne_nil filled, ← ih, found]
      split
      · next unread =>
        cases others with
        | nil => simp [Node.leaf, unread.2]
        | cons other others => rw [List.getLast?_cons_cons, List.getLast?_cons_cons]
      · rw [List.getLast?_cons_cons]

/-! Sources as texts. -/

theorem here_mem_splitOn (c : Cursor) : c.here ∈ Text.splitOn '\n' c.rest := by
  have own := Text.splitOn_of_not_mem c.newline_not_mem_here
  rcases c.last_or_faces with ⟨_, whole⟩ | ⟨rest, _, faces⟩
  · rw [whole, own]
    exact List.mem_singleton_self _
  · rw [faces.unread, Text.splitOn_append, own]
    exact List.mem_cons_self

theorem flush_of_lines {source : Text}
    (flush : ∀ line ∈ Text.splitOn '\n' source,
      (Text.trimStart line).head? = some '%' → line.head? = some '%') : Text.Flush source := by
  intro front back split marked
  have member : Cursor.here ⟨0, back⟩ ∈ Text.splitOn '\n' source := by
    rw [split, Text.splitOn_append]
    exact List.mem_append_right _ (here_mem_splitOn ⟨0, back⟩)
  obtain ⟨rest, here⟩ := List.head?_eq_some_iff.1 (flush _ member marked)
  have whole : Cursor.here ⟨0, back⟩ ++ Cursor.below ⟨0, back⟩ = back := Cursor.here_append_below ⟨0, back⟩
  rw [← whole, here]
  rfl

/-- The statements of a text that starts that many lines further down. -/
theorem spans_shift {limit : Nat} {more : Text} (count : Nat) (enough : more.length < limit) :
    (joinErrors (spans limit [] ⟨1 + count, more⟩).1).map (·.node) =
      (parse more).children.map (Node.shift count) := by
  have like := @statements_like [] count (by simp) (more.length + 1) limit (Cursor.start more)
    (Nat.lt_succ_self _) enough
  rw [Cursor.recast, Cursor.start, Text.endLines_none] at like
  exact Node.eq_map_of_forall₂ like fun _ _ _ like => like.eq_shift

/-- Appending text to a source whose lines are all ended, none of them indented up to a percent sign, and
whose last statement is neither unread nor a rule: the statements are those of the source, and behind them
those of the text, that many lines further down. -/
theorem parse_append {source : Text} (complete : source = [] ∨ source.getLast? = some '\n')
    (flush : ∀ line ∈ Text.splitOn '\n' source,
      (Text.trimStart line).head? = some '%' → line.head? = some '%')
    (settled : ∀ node ∈ (parse source).children.getLast?, node.kind ≠ .error ∧ node.kind ≠ .rule)
    (more : Text) :
    (parse (source ++ more)).children =
      (parse source).children ++ (parse more).children.map (Node.shift (source.count '\n')) := by
  have closed : Text.Closed source := by
    rcases complete with rfl | last
    · simp [Text.Closed]
    · simp [Text.Closed, last]
  have last : ∀ span ∈ (spans (source.length + 1) [] (Cursor.start source)).1.getLast?,
      span.node.kind ≠ .error ∧ span.node.kind ≠ .rule := by
    intro span member
    have kinds := joinErrors_last (spans (source.length + 1) [] (Cursor.start source)).1
    rw [Option.mem_def.1 member] at kinds
    obtain ⟨joined, final, same⟩ := Option.map_eq_some_iff.1 kinds
    have same : joined.node.kind = span.node.kind := same
    rw [← same]
    exact settled joined.node (by simp [parse, Node.branch, final])
  obtain ⟨left, room, found⟩ := @spans_append more (Cursor.start source) (source.length + 1)
    ((source ++ more).length + 1) (flush_of_lines flush) closed (Nat.lt_succ_self _)
    (by simp [Cursor.start]) last
  have nodes : (parse (source ++ more)).children =
      (joinErrors (spans ((source ++ more).length + 1) []
        ((Cursor.start source).extend more)).1).map (·.node) := rfl
  -- The last statement of the source could be read, so no unread spans are joined across the seam.
  rw [nodes, found, joinErrors_append, List.map_append, joinErrors_extend, nodes_extend]
  · exact congrArg _ (spans_shift (source.count '\n') room)
  · rw [List.getLast?_map]
    intro span member
    obtain ⟨own, final, rfl⟩ := Option.map_eq_some_iff.1 (Option.mem_def.1 member)
    exact (last own final).1

/-- A rule and a line that cannot be read, each of them up to the end of its clause. -/
def guardedUnit : Text :=
  "%ifdef a\n.x:\n  run\n\n%else\n?\n%endif # both\nb = 1\n".toList

/-- An indented line and, behind a block, the end of one that was never opened. -/
def looseUnit : Text :=
  "  run\n%if b\n%endif\n%endif".toList

theorem guardedUnit_append :
    guardedUnit.getLast? = some '\n' ∧
      (∀ line ∈ Text.splitOn '\n' guardedUnit,
        (Text.trimStart line).head? = some '%' → line.head? = some '%') ∧
      (∀ node ∈ (parse guardedUnit).children.getLast?, node.kind ≠ .error ∧ node.kind ≠ .rule) ∧
      (parse (guardedUnit ++ looseUnit)).children =
        (parse guardedUnit).children ++ (parse looseUnit).children.map (Node.shift 8) := by
  have complete : guardedUnit.getLast? = some '\n' := by decide
  have flush : ∀ line ∈ Text.splitOn '\n' guardedUnit,
      (Text.trimStart line).head? = some '%' → line.head? = some '%' := by decide
  have settled : ∀ node ∈ (parse guardedUnit).children.getLast?,
      node.kind ≠ .error ∧ node.kind ≠ .rule := by decide +kernel
  exact ⟨complete, flush, settled, parse_append (.inr complete) flush settled looseUnit⟩

end BmakeZig.Source
