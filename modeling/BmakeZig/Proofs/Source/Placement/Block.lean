import BmakeZig.Proofs.Source.Placement.Condition
import BmakeZig.Proofs.Source.Placement.Rule

/-! Where conditional blocks stand, and with them every kind of statement. The reader of bodies is an
argument here, and keeps its nodes in place by assumption. -/
namespace BmakeZig.Source

variable {line : Nat} {text left : Text} {node : Node} {nodes : List Node}
  {c : Cursor} {first : Char}

/-- The bodies that the reader hands over reach up to where it stops. -/
def ReadsBodiesPlaced (body : BodyReader) : Prop :=
  ∀ ends c, c.Moves (body ends c).1.text (body ends c).2 ∧ (body ends c).1.line = c.line ∧
    Sound (body ends c).1

theorem Covers.laid (covers : Covers line text node left) (single : '\n' ∉ text) :
    Laid line text [node] := by
  obtain ⟨front, back, whole⟩ := covers.span
  rw [whole] at single ⊢
  simp only [List.mem_append, not_or] at single
  exact .word covers.sound covers.own (by simp [single]) .done

theorem laid_blockHeader {directive : Directive} (opens : directive.opensBlock = true)
    (read : blockHeader directive c.line c.here = some node) :
    Laid c.line (directive.argument c.here) [node] := by
  obtain ⟨⟨found, left⟩, kept, rfl⟩ := Option.map_eq_some_iff.1 read
  have taken := (Option.filter_eq_some_iff.1 kept).1
  have single := argument_single directive c
  have later := not_mem_skipSpaces single
  cases directive <;> simp only [Directive.opensBlock, Bool.false_eq_true] at opens
  case ifHolds => exact (condition_placed later taken).skipFront.laid single
  case ifDefined | ifUndefined =>
    obtain ⟨⟨name, after⟩, named, same⟩ := Option.map_eq_some_iff.1 taken
    obtain ⟨rfl, rfl⟩ := Prod.mk.inj same
    exact (covers_name c.line named).skipFront.laid single
  case ifFile | ifNoFile =>
    simp only at taken
    split at taken
    · simp at taken
    · obtain ⟨rfl, rfl⟩ := Prod.mk.inj (Option.some.inj taken)
      exact laid_phrase (by decide) single

/-- A line with the body below it, as the text up to where the body stops. -/
theorem laid_above {body : BodyReader} (reads : ReadsBodiesPlaced body) (ends : List Directive)
    (laid : Laid c.line c.here nodes) :
    ∃ ending, c.Moves (c.here ++ ending) (body ends c.nextLine).2 ∧
      Laid c.line (c.here ++ ending) (nodes ++ [(body ends c.nextLine).1]) := by
  obtain ⟨ending, next⟩ := c.moves_nextLine
  obtain ⟨inside, own, sound⟩ := reads ends c.nextLine
  have last := Laid.alone sound []
  rw [own, next.line, List.append_nil] at last
  refine ⟨ending ++ (body ends c.nextLine).1.text, ?_, ?_⟩
  · rw [← List.append_assoc]
    exact next.trans inside
  · rw [← List.append_assoc]
    exact (laid.extend ending).append last

/-- A clause, and the clauses behind it. -/
theorem laid_clause {kind : Kind} {before stop last : Cursor} {blanks used : Text}
    {children : List Node} (plain : kind.isPlain = true) (gap : before.Moves blanks c)
    (moves : c.Moves text stop) (laid : Laid c.line text children) (rest : stop.Moves used last)
    (more : Laid stop.line used nodes) :
    ∃ used, before.Moves used last ∧
      Laid before.line used (.branch kind c.line (c.upTo stop) children :: nodes) := by
  refine ⟨_, gap.trans (moves.trans rest), ?_⟩
  rw [moves.upTo]
  rw [moves.line] at more
  exact .next (sound_branch plain laid) gap.line more

theorem laid_clauses {body : BodyReader} (reads : ReadsBodiesPlaced body) {limit : Nat}
    {before last : Cursor} (read : clauses body limit before = some (nodes, last)) :
    ∃ used, before.Moves used last ∧ Laid before.line used nodes := by
  induction limit generalizing before nodes last with
  | zero => simp [clauses] at read
  | succ limit ih =>
    have gap := before.moves_skipBlank
    simp only [clauses] at read
    split at read
    · next named =>
      split at read
      · simp at read
      · next test _ tested =>
        obtain ⟨⟨more, final⟩, further, same⟩ := Option.map_eq_some_iff.1 read
        obtain ⟨rfl, rfl⟩ := Prod.mk.inj same
        obtain ⟨used, rest, others⟩ := ih further
        have single := argument_single .elseIf before.skipBlank
        have covers := condition_placed single (Option.filter_eq_some_iff.1 tested).1
        obtain ⟨ending, moves, laid⟩ := laid_above reads clauseEnds
          (laid_directive named (covers.laid single))
        exact laid_clause rfl gap moves laid rest others
    · next named =>
      split at read
      · obtain ⟨⟨more, final⟩, further, same⟩ := Option.map_eq_some_iff.1 read
        obtain ⟨rfl, rfl⟩ := Prod.mk.inj same
        obtain ⟨used, rest, others⟩ := ih further
        obtain ⟨ending, moves, laid⟩ := laid_above reads [.endIf] (laid_directive named .done)
        exact laid_clause rfl gap moves laid rest others
      · simp at read
    · next named =>
      obtain ⟨rfl, rfl⟩ := Prod.mk.inj (Option.some.inj read)
      have moves := Cursor.moves_within (here_directive named)
      have token := Laid.alone (sound_token before.skipBlank.line Directive.endIf.spelling) []
      rw [List.append_nil] at token
      refine ⟨_, gap.trans moves, Laid.behind ?_⟩
      rw [← gap.line]
      exact token
    · simp at read

theorem block_passes {body : BodyReader} (reads : ReadsBodiesPlaced body) {directive : Directive}
    {found : Node × Cursor} (opens : Opens c first) (starts : directive.opensBlock = true)
    (named : Directive.at? c.rest = some directive) (read : block body directive c = some found) :
    Passes c found := by
  simp only [block] at read
  split at read
  · simp at read
  · next test tested =>
    obtain ⟨⟨more, last⟩, closed, rfl⟩ := Option.map_eq_some_iff.1 read
    obtain ⟨ending, moves, laid⟩ := laid_above reads clauseEnds
      (laid_directive named (laid_blockHeader starts tested))
    obtain ⟨used, rest, others⟩ := laid_clauses reads closed
    have whole := moves.trans rest
    obtain ⟨front, here⟩ := opens.here
    rw [moves.line] at others
    rw [whole.upTo]
    -- Only a conditional leaves text unread: what stands behind its last word on the same line.
    refine ⟨sound_branch rfl (laid.append others), rfl, by simp [Node.branch, here], last.here, ?_, ?_⟩
    · exact whole.trans last.moves_lineEnd
    · exact last.newline_not_mem_here

theorem skipBlock_moves (depth : Nat) (c : Cursor) :
    ∃ ending, c.Moves (c.here ++ ending) (skipBlock depth c) := by
  fun_induction skipBlock depth c with
  | case1 depth c closed =>
    exact ⟨[], by simpa using c.moves_lineEnd⟩
  | case2 depth c stillOpen finished =>
    exact ⟨[], by simpa using c.moves_lineEnd⟩
  | case3 depth c stillOpen char rest below shorter ih =>
    obtain ⟨ending, next⟩ := c.moves_nextLine
    obtain ⟨more, inside⟩ := ih
    have same : c.nextLine = ⟨c.line + 1, rest⟩ := by rw [Cursor.nextLine, below]
    rw [same] at next
    have whole := next.trans inside
    rw [List.append_assoc] at whole
    exact ⟨_, whole⟩

theorem errorBlock_passes (opens : Opens c first) : Passes c (errorBlock c) := by
  obtain ⟨ending, moves⟩ := skipBlock_moves 0 c
  exact passes_upTo opens rfl moves .done

theorem lineDirective_passes {directive : Directive} {found : Node × Cursor} (opens : Opens c first)
    (named : Directive.at? c.rest = some directive)
    (read : lineDirective directive c = some found) : Passes c found := by
  cases directive <;> simp only [lineDirective] at read
  case error | warn | warning | message =>
    obtain rfl := Option.some.inj read
    exact diagnostic_passes opens named
  case inclusion | search =>
    obtain ⟨node, taken, rfl⟩ := Option.map_eq_some_iff.1 read
    exact pathDirective_passes opens rfl named taken
  case undef =>
    obtain ⟨⟨node, left⟩, taken, rfl⟩ := Option.map_eq_some_iff.1 read
    exact undef_passes named taken
  all_goals simp at read

/-- A reader that may fail, with an unread span in its place. -/
theorem passes_getD {read : Option (Node × Cursor)} {fallback : Node × Cursor}
    (taken : ∀ found, read = some found → Passes c found) (unread : Passes c fallback) :
    Passes c (read.getD fallback) := by
  cases read with
  | none => exact unread
  | some found => exact taken found rfl

theorem statement_passes {body : BodyReader} (reads : ReadsBodiesPlaced body)
    (opens : Opens c first) : Passes c (statement body c) := by
  have unread := errorLine_passes opens
  unfold statement
  split
  · exact comment_passes opens
  · unfold directiveStatement
    split
    · exact unread
    · next directive named =>
      split
      · next starts =>
        exact passes_getD (fun _ read => block_passes reads opens starts named read)
          (errorBlock_passes opens)
      · exact passes_getD (fun _ read => lineDirective_passes opens named read) unread
  · exact passes_getD (fun _ read => rule_passes opens read) unread
  · unfold assignmentOrRule
    split
    · exact unread
    · split
      · exact passes_getD (fun _ read => rule_passes opens read) unread
      · refine passes_getD (fun found read => ?_) unread
        obtain ⟨node, taken, rfl⟩ := Option.map_eq_some_iff.1 read
        exact assignment_passes opens taken

end BmakeZig.Source
