import BmakeZig.Proofs.Source.Placement.Block

/-! Where the statements of a unit stand: in order, with nothing but gaps between them, unread spans
joined. The whole tree is a map of its source. -/
namespace BmakeZig.Source

variable {line : Nat} {text left : Text} {node : Node} {nodes : List Node}
  {c : Cursor} {first : Char}

/-- Statements one behind the other, with blanks before each of them and behind the last. -/
inductive Runs : Cursor → List Span → Cursor → Prop where
  | done {c last : Cursor} {blanks : Text} (moves : c.Moves blanks last)
      (blank : ∀ d ∈ blanks, Text.isBlank d = true) : Runs c [] last
  | next {c last : Cursor} {blanks : Text} {span : Span} {rest : List Span}
      (moves : c.Moves blanks span.start) (blank : ∀ d ∈ blanks, Text.isBlank d = true)
      (passes : Passes span.start (span.node, span.stop)) (more : Runs span.stop rest last) :
      Runs c (span :: rest) last

/-- An unread span goes all the way to the place where it stops. -/
theorem Passes.error {stop : Cursor} (passes : Passes c (node, stop)) (unread : node.kind = .error) :
    c.Moves node.text stop := by
  obtain ⟨behind, moves, leaves⟩ := passes.span
  have nothing : behind = [] := by simpa [MayLeave, unread] using leaves
  simpa [nothing] using moves

theorem join_passes {left right : Span} {blanks : Text}
    (first : Passes left.start (left.node, left.stop)) (gap : left.stop.Moves blanks right.start)
    (second : Passes right.start (right.node, right.stop))
    (unread : left.node.kind = .error ∧ right.node.kind = .error) :
    Passes left.start
      (.leaf .error left.start.line (left.start.upTo right.stop), right.stop) := by
  have whole := (first.error unread.1).trans (gap.trans (second.error unread.2))
  have filled : left.node.text ≠ [] := first.filled
  rw [whole.upTo]
  refine ⟨sound_leaf (by decide) _ _, rfl, by simp [Node.leaf, filled], [], ?_, by simp [MayLeave, Node.leaf]⟩
  simpa [Node.leaf] using whole

/-- Joining keeps the statements in their places, and leaves no two unread spans side by side. -/
theorem joinErrors_runs {c last : Cursor} {found : List Span} (runs : Runs c found last) :
    Runs c (joinErrors found) last ∧ Apart .error ((joinErrors found).map (·.node)) := by
  induction runs with
  | done moves blank => exact ⟨.done moves blank, .nil⟩
  | @next c last blanks span rest moves blank passes more ih =>
    obtain ⟨runs, apart⟩ := ih
    unfold joinErrors
    split
    · next nothing =>
      rw [nothing] at runs
      exact ⟨.next moves blank passes runs, .singleton _⟩
    · next other others joined =>
      rw [joined] at runs apart
      cases runs with
      | next gap blanks inside later =>
        obtain ⟨alone, further⟩ := List.isChain_cons.1 apart
        split
        · next unread =>
          have both := join_passes passes gap inside unread
          refine ⟨.next moves blank both later, List.isChain_cons.2 ⟨?_, further⟩⟩
          -- What follows the joined span followed the second one, which was unread too.
          exact fun follower first same => alone follower first ⟨unread.2, same.2⟩
        · next readable =>
          refine ⟨.next moves blank passes (.next gap blanks inside later), ?_⟩
          exact List.isChain_cons.2 ⟨by simpa using readable, apart⟩

theorem MayLeave.blank {kind : Kind} {behind : Text} (leaves : MayLeave kind behind)
    (other : kind ≠ .conditional) : ∀ d ∈ behind, Text.isBlank d = true := by
  intro d member
  rw [MayLeave, if_neg other] at leaves
  split at leaves
  · simp [leaves] at member
  · exact leaves d member

/-- What a statement may leave, before the first one too. -/
def MayFollow : Option Kind → Text → Prop
  | none, behind => behind = []
  | some kind, behind => MayLeave kind behind

theorem isGap_append {previous : Option Kind} {behind blanks : Text}
    (leaves : MayFollow previous behind) (blank : ∀ d ∈ blanks, Text.isBlank d = true) :
    IsGap previous (behind ++ blanks) := by
  intro d member
  cases previous with
  | none =>
    obtain rfl : behind = [] := leaves
    exact blank d (by simpa using member)
  | some kind =>
    by_cases conditional : kind = .conditional
    · -- Only what follows the end of the line is asked to be blank, and `behind` stands on the line.
      have single : '\n' ∉ behind := by simpa [MayFollow, MayLeave, conditional] using leaves
      have passed : ∀ e ∈ behind, (e != '\n') = true := fun e inside => by
        have other : e ≠ '\n' := fun same => single (same ▸ inside)
        simpa using other
      rw [if_pos (by rw [conditional]), List.dropWhile_append_of_pos passed] at member
      exact blank d ((List.dropWhile_suffix _).subset member)
    · rw [if_neg (by simpa using conditional), List.mem_append] at member
      rcases member with inside | later
      · exact MayLeave.blank leaves conditional d inside
      · exact blank d later

/-- Statements one behind the other are given their starts, from where the one before them ends. -/
theorem Runs.placed {c last : Cursor} {found : List Span} (runs : Runs c found last) :
    ∃ text, c.Moves text last ∧
      ∀ {source : Text} {low line : Nat} {previous : Option Kind} {behind : Text},
        MayFollow previous behind → c.line = line + behind.count '\n' →
        StandsAt source low line (behind ++ text) →
        ∃ starts, List.Forall₂ (Maps source) starts (found.map (·.node)) ∧
          InOrder low (low + (behind ++ text).length) (starts.zip (found.map (·.node))) ∧
          OnlyGaps source low (low + (behind ++ text).length) previous
            (starts.zip (found.map (·.node))) := by
  induction runs with
  | @done c last blanks moves blank =>
    refine ⟨blanks, moves, fun leaves lines stands => ⟨[], .nil, Nat.le_add_right _ _, ?_⟩⟩
    rw [List.zip_nil_left, OnlyGaps, stands.slice_eq]
    exact isGap_append leaves blank
  | @next c last blanks span rest moves blank passes more ih =>
    obtain ⟨text, further, placed⟩ := ih
    obtain ⟨left, inside, allowed⟩ := passes.span
    refine ⟨blanks ++ ((span.node.text ++ left) ++ text), moves.trans (inside.trans further), ?_⟩
    intro source low line previous behind leaves lines stands
    have shape : behind ++ (blanks ++ ((span.node.text ++ left) ++ text)) =
        (behind ++ blanks) ++ (span.node.text ++ (left ++ text)) := by simp
    rw [shape] at stands ⊢
    have own : span.node.line = line + (behind ++ blanks).count '\n' := by
      have same : span.node.line = span.start.line := passes.own
      rw [same, moves.line, lines, List.count_append, Nat.add_assoc]
    have here := stands.back
    rw [← own] at here
    have ends : span.stop.line = span.node.line + span.node.text.count '\n' + left.count '\n' := by
      have same : span.node.line = span.start.line := passes.own
      rw [inside.line, List.count_append, same, Nat.add_assoc]
    have follows : MayFollow (some span.node.kind) left := allowed
    obtain ⟨starts, maps, ordered, gaps⟩ := placed follows ends here.back
    have size : low + ((behind ++ blanks) ++ (span.node.text ++ (left ++ text))).length =
        low + (behind ++ blanks).length + span.node.text.length + (left ++ text).length := by
      simp only [List.length_append]
      omega
    have gap := isGap_append leaves blank
    rw [← stands.front.slice_eq] at gap
    rw [size]
    exact ⟨(low + (behind ++ blanks).length) :: starts, .cons (passes.sound _ _ here.front) maps,
      ⟨Nat.le_add_right _ _, ordered⟩, gap, gaps⟩

/-- Statements that fill a text are children of a node with that text. -/
theorem maps_statements {kind : Kind} {last : Cursor} {found : List Span} {source : Text}
    {offset : Nat} (lists : kind.listsStatements = true) (runs : Runs c found last)
    (stands : StandsAt source offset c.line (c.upTo last)) :
    Maps source offset
      (.branch kind c.line (c.upTo last) ((joinErrors found).map (·.node))) := by
  obtain ⟨joined, apart⟩ := joinErrors_runs runs
  obtain ⟨text, moves, placed⟩ := joined.placed
  rw [moves.upTo] at stands ⊢
  have nothing : MayFollow none [] := rfl
  obtain ⟨starts, maps, ordered, gaps⟩ := placed nothing (by simp) stands
  refine .intro stands maps ordered (fun _ => ⟨gaps, apart⟩) fun phrase => ?_
  have either : kind = .sourceFile ∨ kind = .body := by simpa [Kind.listsStatements] using lists
  rcases either with rfl | rfl <;> cases phrase

theorem bodyOf_placed {found : List Span × Cursor} (runs : Runs c found.1 found.2) :
    c.Moves (bodyOf c found).1.text (bodyOf c found).2 ∧ (bodyOf c found).1.line = c.line ∧
      Sound (bodyOf c found).1 := by
  obtain ⟨text, moves, -⟩ := runs.placed
  refine ⟨?_, rfl, fun source offset stands => maps_statements rfl runs stands⟩
  simpa [bodyOf, Node.branch, moves.upTo] using moves

theorem opens_skipBlank (filled : c.skipBlank.rest ≠ []) : ∃ first, Opens c.skipBlank first := by
  obtain ⟨first, rest, unread⟩ := List.exists_cons_of_ne_nil filled
  have solid : Text.isBlank first = false := by
    have stopped := List.head?_dropWhile_not Text.isBlank c.rest
    rw [show c.rest.dropWhile Text.isBlank = first :: rest from unread] at stopped
    exact stopped
  have other : (first != '\n') = true := by
    have unequal : first ≠ '\n' := by
      rintro rfl
      exact absurd solid (by decide)
    simpa using unequal
  refine ⟨first, solid, rest.takeWhile (· != '\n'), ?_⟩
  simp [Cursor.here, unread, other]

/-- The bodies in a statement, when what is read with the limit runs on. -/
theorem reads_bodyOf {limit : Nat}
    (runs : ∀ ends c, Runs c (spans limit ends c).1 (spans limit ends c).2) :
    ReadsBodiesPlaced fun ends start => bodyOf start (spans limit ends start) :=
  fun ends start => bodyOf_placed (runs ends start)

/-- The statements read from a place on, by induction on the limit: the bodies in a statement are
read with the next smaller one. -/
theorem spans_runs (limit : Nat) (ends : List Directive) (c : Cursor) :
    Runs c (spans limit ends c).1 (spans limit ends c).2 := by
  induction limit generalizing ends c with
  | zero => exact .done (.none c) (by simp)
  | succ limit ih =>
    have blank : ∀ d ∈ c.rest.takeWhile Text.isBlank, Text.isBlank d = true :=
      fun d member => List.mem_takeWhile_imp member
    rw [spans]
    split
    · exact .done c.moves_skipBlank blank
    · next going =>
      obtain ⟨first, opens⟩ := opens_skipBlank fun finished => going (.inl finished)
      exact .next c.moves_skipBlank blank (statement_passes (reads_bodyOf ih) opens) (ih ends _)

theorem Passes.shorter {found : Node × Cursor} (passes : Passes c found) :
    found.2.rest.length < c.rest.length := by
  obtain ⟨behind, moves, -⟩ := passes.span
  have filled := List.length_pos_iff.2 passes.filled
  simp only [moves.rest, List.length_append]
  omega

/-- No statement is left out: every one takes a character, and there are fewer than the limit. -/
theorem spans_over {limit : Nat} {c : Cursor} (enough : c.rest.length < limit) :
    (spans limit [] c).2.rest = [] := by
  induction limit generalizing c with
  | zero => omega
  | succ limit ih =>
    rw [spans]
    split
    · next finished => simpa using finished
    · next going =>
      obtain ⟨first, opens⟩ := opens_skipBlank fun finished => going (.inl finished)
      have taken := (statement_passes (reads_bodyOf (spans_runs limit)) opens).shorter
      have skipped := Text.length_dropWhile_le Text.isBlank c.rest
      refine ih (Nat.lt_of_lt_of_le taken ?_)
      exact Nat.le_trans skipped (Nat.lt_succ_iff.1 enough)

/-- The tree of a source maps it, from its first character on. -/
theorem maps_parse (source : Text) : Maps source 0 (parse source) := by
  have runs := spans_runs (source.length + 1) [] (Cursor.start source)
  have finished : (spans (source.length + 1) [] (Cursor.start source)).2.rest = [] :=
    spans_over (Nat.lt_succ_self source.length)
  have whole : (Cursor.start source).upTo (spans (source.length + 1) [] (Cursor.start source)).2 =
      source := by
    rw [Cursor.upTo, finished]
    simp [Cursor.start, Text.consumed]
  have stands : StandsAt source 0 1 source := ⟨[], [], by simp, rfl, rfl⟩
  have maps : Maps source 0 (.branch .sourceFile 1
      ((Cursor.start source).upTo (spans (source.length + 1) [] (Cursor.start source)).2)
      ((joinErrors (spans (source.length + 1) [] (Cursor.start source)).1).map (·.node))) :=
    maps_statements rfl runs (whole.symm ▸ stands)
  rw [whole] at maps
  exact maps

end BmakeZig.Source
