import BmakeZig.Proofs.Source.Recovery.Reading

/-! Where a recovery comes to the end of a block that can be read. It counts the lines of rules as if they
were directives, which the readers take for commands, so it stops behind the block exactly where the
commands of the block end as many blocks as they open, and never more. -/
namespace BmakeZig.Source

variable {c stop : Cursor} {limit : Nat} {directive : Directive} {node : Node} {header : Text}

/-- In front of its end the block is the only one that is counted as open. Where the source ends with the
block, more may be. -/
def EndsAlike (node : Node) (stop : Cursor) : Prop :=
  Node.walks depthAfter node.children 1 = some 1 ∨
    stop.rest = [] ∧ ∃ more, Node.walks depthAfter node.children 1 = some (more + 2)

/-- From the end of a line on, a recovery goes on as long as there is something left. -/
theorem skipBlock_lineEnd_eq_iff {depth : Nat} (started : depth ≠ 0) :
    skipBlock depth c.lineEnd = c.lineEnd ↔ c.lineEnd.rest = [] := by
  obtain ⟨here, next, still⟩ := c.at_lineEnd
  have below : c.lineEnd.below = c.lineEnd.rest := congrArg Cursor.rest still
  constructor
  · intro same
    by_contra filled
    have idle : depthAfter depth c.lineEnd.here ≠ 0 := by rwa [here, depthAfter_nil]
    obtain ⟨_, moves⟩ := skipBlock_moves (depthAfter depth c.lineEnd.here) c.lineEnd.nextLine
    have shorter := Nat.lt_of_le_of_lt moves.later (Cursor.length_nextLine_lt filled)
    rw [← skipBlock_next idle, same] at shorter
    exact Nat.lt_irrefl _ shorter
  · intro spent
    rw [skipBlock_last (below.trans spent), still]

theorem length_lineEnd_lt (named : Directive.at? c.rest = some directive) :
    c.lineEnd.rest.length < c.rest.length := by
  obtain ⟨_, here⟩ := (opens_of_at? named).here
  have whole := congrArg List.length c.here_append_below
  rw [here] at whole
  simp only [List.length_append, List.length_cons] at whole
  simp only [Cursor.lineEnd]
  omega

/-- A block that can be read stops at the end of the line on which it ends. -/
theorem block_stops (starts : directive.opensBlock = true)
    (read : block (bodies limit) directive c = some (node, stop)) :
    ∃ text ending, c.Moves text ending ∧ Directive.at? ending.rest = some .endIf ∧
      ending.lineEnd = stop := by
  obtain ⟨-, ending, ends, same, inside⟩ :=
    block_inside counts_all (bodies_follow counts_all limit) trivial starts read
  obtain ⟨_, line⟩ := c.moves_onward
  obtain ⟨_, below⟩ := inside.moves
  exact ⟨_, ending, line.trans below, ends, same⟩

/-- A recovery from the start of a block that can be read. -/
theorem skipBlock_eq_iff (named : Directive.at? c.rest = some directive)
    (starts : directive.opensBlock = true) (read : block (bodies limit) directive c = some (node, stop)) :
    skipBlock 0 c = stop ↔ EndsAlike node stop := by
  obtain ⟨-, ending, ends, rfl, inside⟩ :=
    block_inside counts_all (bodies_follow counts_all limit) trivial starts read
  have shorter := length_lineEnd_lt ends
  rw [skipBlock_start named starts, EndsAlike]
  cases counted : Node.walks depthAfter node.children 1 with
  | none =>
    have early := inside.ends 1 (by simp) counted
    refine iff_of_false (fun same => ?_) (by simp)
    rw [same] at early
    omega
  | some left =>
    obtain ⟨some_left, same⟩ := inside.goes 1 (by simp) left counted
    rw [same]
    match left, some_left with
    | 1, _ => simp [skipBlock_closed ((opens_of_at? ends).depthAfter_endIf ends 1)]
    | more + 2, _ =>
      obtain ⟨-, further⟩ := (follows_endIf ends).goes (more + 2) (by simp) (more + 1) rfl
      rw [further, skipBlock_lineEnd_eq_iff (by simp)]
      simp

/-- A first line that opens a block and cannot be read. -/
structure Spoiling (line : Nat) (header : Text) : Prop where
  single : '\n' ∉ header
  unread : ∃ directive, Directive.at? header = some directive ∧ directive.opensBlock = true ∧
    blockHeader directive line header = none

theorem Spoiling.opens (spoiling : Spoiling c.line header) : ∃ directive,
    Directive.at? (c.within header).rest = some directive ∧ directive.opensBlock = true ∧
      blockHeader directive (c.within header).line (c.within header).here = none := by
  obtain ⟨single, directive, named, starts, unread⟩ := spoiling
  obtain ⟨here, -⟩ := c.here_within single
  have filled : header ≠ [] := by
    rintro rfl
    cases named
  refine ⟨directive, ?_, starts, by rw [here]; exact unread⟩
  rw [← named]
  exact Directive.at?_append c.below_stops filled

/-- The block with another first line is one unread span, up to where a recovery of the block stops. -/
theorem statement_spoiled (spoiling : Spoiling c.line header)
    (named : Directive.at? c.rest = some directive) (starts : directive.opensBlock = true)
    (body : BodyReader) :
    statement body (c.within header) =
      (.leaf .error c.line (header ++ c.lineEnd.upTo (skipBlock 0 c)), skipBlock 0 c) := by
  obtain ⟨other, otherNamed, otherStarts, unread⟩ := spoiling.opens
  obtain ⟨here, below⟩ := c.here_within spoiling.single
  have same : skipBlock 0 (c.within header) = skipBlock 0 c := by
    have next : (c.within header).nextLine = c.nextLine := by
      rw [Cursor.nextLine, below, Cursor.nextLine]
      rfl
    rw [skipBlock_start otherNamed otherStarts, next, skipBlock_start named starts]
  have unreadable : block body other (c.within header) = none := by
    simp only [block, unread]
  have text : (c.within header).upTo (skipBlock 0 c) = header ++ c.lineEnd.upTo (skipBlock 0 c) := by
    obtain ⟨behind, moves⟩ := skipBlock_moves 0 c
    have left : c.below = behind ++ (skipBlock 0 c).rest := by
      have whole := c.here_append_below.trans moves.rest
      rwa [List.append_assoc, List.append_cancel_left_eq] at whole
    simp only [Cursor.upTo, Cursor.within, Cursor.lineEnd, left]
    rw [← List.append_assoc, Text.consumed_append, Text.consumed_append]
  rw [statement_opening otherNamed otherStarts, unreadable, Option.getD_none, errorBlock, same, text]
  rfl

theorem Opens.skipBlank_eq {first : Char} (opens : Opens c first) : c.skipBlank = c := by
  obtain ⟨rest, here⟩ := opens.here
  have unread : c.rest = first :: (rest ++ c.below) := by
    rw [← c.here_append_below, here, List.cons_append]
  have solid : ¬Text.isBlank first = true := by simp [opens.solid]
  rw [Cursor.skipBlank, unread, List.takeWhile_cons_of_neg solid, List.dropWhile_cons_of_neg solid,
    ← unread]
  rfl

/-- A directive that does not end the list starts a statement of it. -/
theorem spans_directive (named : Directive.at? c.rest = some directive) {ends : List Directive}
    (inside : directive ∉ ends) {found : Node × Cursor} (read : statement (bodies limit) c = found) :
    spans (limit + 1) ends c =
      (⟨found.1, c, found.2⟩ :: (spans limit ends found.2).1, (spans limit ends found.2).2) := by
  have opens := opens_of_at? named
  have same := opens.skipBlank_eq
  obtain ⟨rest, here⟩ := opens.here
  have filled : c.rest ≠ [] := by
    rw [← c.here_append_below, here]
    simp
  have going : ¬(c.skipBlank.rest = [] ∨ (Directive.at? c.skipBlank.rest).any (ends.contains ·)) := by
    simp [same, filled, named, inside]
  rw [spans_going going, same, read]

/-- A recovery agrees with the readers on the end of a block exactly where the commands in it end as many
blocks as they open. Only there a first line that cannot be read makes the block, and nothing else, an
unread span, with the same statements behind it. -/
theorem block_recovery_iff (named : Directive.at? c.rest = some directive)
    (starts : directive.opensBlock = true) (read : block (bodies limit) directive c = some (node, stop)) :
    (∃ text ending, c.Moves text ending ∧ Directive.at? ending.rest = some .endIf ∧
        ending.lineEnd = stop) ∧
      (skipBlock 0 c = stop ↔ EndsAlike node stop) ∧
      ∀ header ends, Spoiling c.line header → (∀ ending ∈ ends, Directive.opensBlock ending = false) →
        ∃ more last, spans (limit + 1) ends c = (⟨node, c, stop⟩ :: more, last) ∧
          (spans (limit + 1) ends (c.within header) =
              (⟨.leaf .error c.line (header ++ c.lineEnd.upTo stop), c.within header, stop⟩ :: more,
                last) ↔
            EndsAlike node stop) := by
  have agrees := skipBlock_eq_iff named starts read
  refine ⟨block_stops starts read, agrees, fun header ends spoiling closing => ?_⟩
  have inside {directive : Directive} (starts : directive.opensBlock = true) : directive ∉ ends :=
    fun member => by simp [closing directive member] at starts
  have whole : statement (bodies limit) c = (node, stop) := by
    rw [statement_opening named starts, read, Option.getD_some]
  obtain ⟨other, otherNamed, otherStarts, -⟩ := spoiling.opens
  have spoiled := statement_spoiled spoiling named starts (bodies limit)
  refine ⟨_, _, spans_directive named (inside starts) whole, ?_⟩
  rw [spans_directive otherNamed (inside otherStarts) spoiled, ← agrees]
  constructor
  · intro same
    exact congrArg Span.stop (List.cons.inj (Prod.mk.inj same).1).1
  · intro same
    rw [same]

/-- A block around a rule whose commands look like a block. -/
def shownBlock : Cursor :=
  .start "%if A\n.t:\n\t%if B\n\t%endif\n%else\nY = 2\n%endif # A\nX = 1\n".toList

theorem shownBlock_recovered : ∃ node stop more last,
    block (bodies 9) .ifHolds shownBlock = some (node, stop) ∧ skipBlock 0 shownBlock = stop ∧
      Spoiling 1 "%if )".toList ∧
      spans 10 [] shownBlock = (⟨node, shownBlock, stop⟩ :: more, last) ∧
      spans 10 [] (shownBlock.within "%if )".toList) =
        (⟨.leaf .error 1 ("%if )".toList ++ shownBlock.lineEnd.upTo stop),
          shownBlock.within "%if )".toList, stop⟩ :: more, last) := by
  have readable : (block (bodies 9) .ifHolds shownBlock).map
      (fun found => Node.walks depthAfter found.1.children 1) = some (some 1) := by decide +kernel
  obtain ⟨⟨node, stop⟩, read, even⟩ := Option.map_eq_some_iff.1 readable
  have spoiling : Spoiling 1 "%if )".toList :=
    ⟨by decide, .ifHolds, by decide, rfl, Option.isNone_iff_eq_none.1 (by decide +kernel)⟩
  obtain ⟨-, agrees, spoils⟩ := block_recovery_iff (by decide) rfl read
  obtain ⟨more, last, whole, spoiled⟩ := spoils _ [] spoiling (by simp)
  exact ⟨node, stop, more, last, read, agrees.2 (.inl even), spoiling, whole, spoiled.2 (.inl even)⟩

/-- A block around a rule with a command that looks like the start of one. -/
def openBlock : Cursor :=
  .start "%if A\n.t:\n\t%if B\n%endif\nX = 1\n".toList

theorem openBlock_overrun : ∃ node, block (bodies 9) .ifHolds openBlock = some (node, ⟨4, "\nX = 1\n".toList⟩) ∧
    skipBlock 0 openBlock ≠ ⟨4, "\nX = 1\n".toList⟩ := by
  have readable : (block (bodies 9) .ifHolds openBlock).map (·.2) = some ⟨4, "\nX = 1\n".toList⟩ := by
    decide +kernel
  obtain ⟨⟨node, stop⟩, read, rfl⟩ := Option.map_eq_some_iff.1 readable
  exact ⟨node, read, by decide +kernel⟩

end BmakeZig.Source
