import BmakeZig.Proofs.Source.Echo.Block
import BmakeZig.Proofs.Source.Placement.Unit

/-! Whole units, read further down and with other line ends. -/
namespace BmakeZig.Source

variable {ending : Text} {c last : Cursor} (count : Nat)

/-- Statements that are alike, from one place on. -/
structure Span.Echoes (count : Nat) (ending : Text) (span span' : Span) : Prop where
  start : span'.start = span.start.recast count ending
  agrees : Agrees count ending (span.node, span.stop) (span'.node, span'.stop)

/-- Statements are read from behind the blanks on. -/
theorem spans_skipBlank {limit : Nat} (some_left : limit ≠ 0) (ends : List Directive)
    {other : Cursor} (same : c.skipBlank = other.skipBlank) :
    spans limit ends c = spans limit ends other := by
  obtain ⟨limit, rfl⟩ := Nat.exists_eq_succ_of_ne_zero some_left
  simp only [spans, same]

variable (spaces : ∀ c ∈ ending, Text.isSpace c = true)

include spaces

/-- Two unread spans that are alike on either side, joined. -/
theorem join_echoes {span span' next next' : Span} {gap : Text}
    (passes : Passes span.start (span.node, span.stop)) (between : span.stop.Moves gap next.start)
    (inside : Passes next.start (next.node, next.stop))
    (unread : span.node.kind = .error ∧ next.node.kind = .error)
    (first : span.Echoes count ending span') (second : next.Echoes count ending next') :
    Span.Echoes count ending
      ⟨.leaf .error span.start.line (span.start.upTo next.stop), span.start, next.stop⟩
      ⟨.leaf .error span'.start.line (span'.start.upTo next'.stop), span'.start, next'.stop⟩ := by
  -- The joined span ends as the second one does, so what holds of its last line still holds.
  have whole := (passes.error unread.1).trans (between.trans (inside.error unread.2))
  have solid : ∀ below, next.stop.rest = '\n' :: below →
      ∃ front d, span.start.upTo next.stop = front ++ [d] ∧ d ≠ '\n' := by
    intro below stopped
    obtain ⟨front, d, split, other⟩ := second.agrees.unread unread.2 below stopped
    refine ⟨span.node.text ++ (gap ++ front), d, ?_, other⟩
    rw [whole.upTo]
    simp only at split
    simp [split]
  have rewritten := whole.rewritten spaces second.agrees.meets (whole.upTo ▸ solid)
  rw [← first.start, ← whole.upTo] at rewritten
  refine ⟨first.start, ?_, second.agrees.meets, fun _ => solid⟩
  rw [first.start] at rewritten ⊢
  exact .span rfl rewritten .nil

theorem joinErrors_echoes {found found' : List Span} (runs : Runs c found last)
    (echoes : List.Forall₂ (Span.Echoes count ending) found found') :
    List.Forall₂ (Span.Echoes count ending) (joinErrors found) (joinErrors found') := by
  induction runs generalizing found' with
  | done =>
    cases echoes
    exact .nil
  | @next c last blanks span rest moves blank passes more ih =>
    cases echoes with
    | @cons _ span' _ rest' first others =>
      have further := ih others
      have runs := (joinErrors_runs more).1
      rw [joinErrors, joinErrors]
      generalize joinErrors rest = joined at further runs ⊢
      generalize joinErrors rest' = joined' at further ⊢
      cases further with
      | nil => exact .cons first .nil
      | @cons next next' more more' second later =>
        have kind : span'.node.kind = span.node.kind := first.agrees.like.kind_eq
        have kind' : next'.node.kind = next.node.kind := second.agrees.like.kind_eq
        simp only [kind, kind']
        cases runs with
        | next gap _ inside _ =>
          split
          · next unread => exact .cons (join_echoes count spaces passes gap inside unread first second) later
          · exact .cons first (.cons second later)

/-- Bodies of statements that are alike are alike. -/
theorem bodyOf_like {found found' : List Span × Cursor} (runs : Runs c found.1 found.2)
    (echoes : List.Forall₂ (Span.Echoes count ending) found.1 found'.1)
    (stop : found'.2 = found.2.recast count ending) :
    Node.Like count ending (bodyOf c found).1 (bodyOf (c.recast count ending) found').1 ∧
      (bodyOf (c.recast count ending) found').2 = (bodyOf c found).2.recast count ending := by
  obtain ⟨text, moves, -⟩ := runs.placed
  refine ⟨.span rfl (.inl ?_) ?_, stop⟩
  · rw [stop]
    exact upTo_recast count spaces moves
  · refine List.forall₂_map_left_iff.2 (List.forall₂_map_right_iff.2 ?_)
    exact (joinErrors_echoes count spaces runs echoes).imp fun _ _ echo => echo.agrees.like

/-- The statements from a place on, by induction on the limit. The limits need not be the same: neither
is reached. -/
theorem spans_echo {limit limit' : Nat} (ends : List Directive) (c : Cursor)
    (enough : c.rest.length < limit) (enough' : c.rest.length < limit') :
    List.Forall₂ (Span.Echoes count ending) (spans limit ends c).1
        (spans limit' ends (c.recast count ending)).1 ∧
      (spans limit' ends (c.recast count ending)).2 = (spans limit ends c).2.recast count ending := by
  induction limit generalizing limit' ends c with
  | zero => omega
  | succ limit ih =>
    obtain ⟨limit', rfl⟩ := Nat.exists_eq_succ_of_ne_zero (Nat.ne_zero_of_lt enough')
    have skipped : c.skipBlank.rest.length ≤ c.rest.length :=
      Text.length_dropWhile_le Text.isBlank c.rest
    have spent : (c.skipBlank.recast count ending).rest = [] ↔ c.skipBlank.rest = [] :=
      Text.endLines_eq_nil
    simp only [spans, Cursor.skipBlank_recast spaces, Cursor.at?_recast spaces, spent]
    split
    · exact ⟨.nil, rfl⟩
    · next going =>
      obtain ⟨first, opens⟩ := opens_skipBlank fun finished => going (.inl finished)
      have reads := reads_bodyOf (spans_runs limit)
      have shorter := (statement_passes reads opens).shorter
      have bodies : EchoesBodies count ending c.skipBlank.rest.length
          (fun ends start => bodyOf start (spans limit ends start))
          (fun ends start => bodyOf start (spans limit' ends start)) := by
        intro ends start fits
        obtain ⟨echoes, stop⟩ := @ih limit' ends start (by omega) (by omega)
        exact bodyOf_like count spaces (spans_runs limit ends start) echoes stop
      have agrees := statement_agrees count spaces reads bodies opens (Nat.le_refl _)
      -- The places where the statements stop need not be the same, but those behind the blanks are.
      have same := (agrees.meets.skipBlank spaces).trans (Cursor.skipBlank_recast spaces _).symm
      obtain ⟨echoes, stop⟩ := @ih limit' ends
        (statement (fun ends start => bodyOf start (spans limit ends start)) c.skipBlank).2
        (by omega) (by omega)
      rw [← spans_skipBlank (by omega) ends same] at echoes stop
      exact ⟨.cons ⟨rfl, agrees⟩ echoes, stop⟩

/-- The statements of a source that is read from a later line on, and with its lines ended so. -/
theorem statements_like {limit limit' : Nat} (c : Cursor) (enough : c.rest.length < limit)
    (enough' : c.rest.length < limit') :
    List.Forall₂ (Node.Like count ending) ((joinErrors (spans limit [] c).1).map (·.node))
      ((joinErrors (spans limit' [] (c.recast count ending)).1).map (·.node)) := by
  obtain ⟨echoes, -⟩ := spans_echo count spaces [] c enough enough'
  refine List.forall₂_map_left_iff.2 (List.forall₂_map_right_iff.2 ?_)
  exact (joinErrors_echoes count spaces (spans_runs limit [] c) echoes).imp
    fun _ _ echo => echo.agrees.like

theorem parse_like (source : Text) :
    Node.Like 0 ending (parse source) (parse (Text.endLines ending source)) := by
  have longer := Text.length_le_endLines ending source
  refine .span rfl (.inl rfl) ?_
  exact statements_like 0 spaces (Cursor.start source) (Nat.lt_succ_self _) (Nat.lt_succ_of_le longer)

end BmakeZig.Source
