import BmakeZig.Proofs.Source.Recovery.Reading

/-! The end of a block, seen from within it. Where no line is indented up to a percent sign, whatever is
read inside a block opens as many blocks as it closes, so that from behind it the block ends at the same
place. Only lines of a rule could be counted otherwise: those are indented. -/
namespace BmakeZig

namespace Text

/-- The line that the text starts with has nothing before a leading percent sign. -/
def FlushLine (text : Text) : Prop :=
  (trimStart (text.takeWhile (· != '\n'))).head? = some '%' → text.head? = some '%'

/-- Every line behind the first one has nothing before a leading percent sign. -/
def Flush (text : Text) : Prop :=
  ∀ front back, text = front ++ '\n' :: back → FlushLine back

theorem Flush.suffix {used rest : Text} (flush : Flush (used ++ rest)) : Flush rest :=
  fun front back split => flush (used ++ front) back (by rw [split, List.append_assoc])

end Text

namespace Source

variable {c stop : Cursor} {depth : Nat} {first : Char} {body : BodyReader}

theorem Cursor.Moves.flush {text : Text} (moves : c.Moves text stop) (flush : Text.Flush c.rest) :
    Text.Flush stop.rest := by
  rw [moves.rest] at flush
  exact flush.suffix

theorem Cursor.nextLine_flush (flush : Text.Flush c.rest) :
    Text.Flush c.nextLine.rest ∧ Text.FlushLine c.nextLine.rest := by
  obtain ⟨ending, moves⟩ := c.moves_nextLine
  refine ⟨moves.flush flush, ?_⟩
  rcases c.last_or_faces with ⟨last, _⟩ | ⟨rest, _, faces⟩
  · rw [Cursor.nextLine, last]
    intro marked
    cases marked
  · rw [faces.nextLine]
    exact flush c.here rest faces.unread

/-! Rules. The lines of a body are indented, so none of them is a directive where the source is flush. -/

theorem filledLine_flush {filled : Cursor} (flush : Text.Flush c.rest) (line : Text.FlushLine c.rest)
    (found : filledLine c = some filled) : Text.Flush filled.rest ∧ Text.FlushLine filled.rest := by
  fun_induction filledLine c with
  | case1 c _ =>
    obtain rfl := Option.some.inj found
    exact ⟨flush, line⟩
  | case2 => cases found
  | case3 c blank first rest below shorter ih =>
    have next : c.nextLine = ⟨c.line + 1, rest⟩ := by rw [Cursor.nextLine, below]
    obtain ⟨further, own⟩ := c.nextLine_flush flush
    rw [next] at further own
    exact ih further own found

theorem balanced_bodyEntries (flush : Text.Flush c.rest) (line : Text.FlushLine c.rest) :
    Balanced c (bodyEntries c).2 := by
  fun_induction bodyEntries c with
  | case1 c finished => exact .refl c
  | case2 c filled found shorter rest ih =>
    obtain ⟨kept, indented⟩ := Option.filter_eq_some_iff.1 found
    obtain ⟨further, own⟩ := filledLine_flush flush line kept
    -- A directive on the line would start it, but the line is indented.
    have plain : (Text.trimStart filled.here).head? ≠ some '%' := fun marked => by
      obtain ⟨behind, unread⟩ := List.head?_eq_some_iff.1 (own marked)
      simp [unread] at indented
    obtain ⟨below, next⟩ := filled.nextLine_flush further
    have passed := balanced_nextLine (depthAfter_of_not_directive plain)
    exact ((balanced_filledLine kept).trans passed).trans (ih below next)

theorem counts_flush : Counts Text.Flush fun depth _ => depth where
  suffix flush := flush.suffix
  entries {c} flush := by
    obtain ⟨below, line⟩ := c.nextLine_flush flush
    have still := Follows.of_balanced (balanced_bodyEntries below line)
      (follows_bodyEntries c.nextLine).moves
    exact still.congr fun depth started => (Node.walks_still _ started).symm

/-! Blocks and lists of statements. -/

/-- The reader stops where as many blocks are open as before. -/
def ReadsBalanced (body : BodyReader) : Prop :=
  ∀ ends c, Directive.endIf ∈ ends → Text.Flush c.rest → Balanced c (body ends c).2

theorem ReadsBalanced.follows (balances : ReadsBalanced body) (reads : ReadsBodiesPlaced body) :
    ReadsFollowing Text.Flush (fun depth _ => depth) body := by
  intro ends c closes flush
  obtain ⟨moves, -⟩ := reads ends c
  have still := Follows.of_balanced (balances ends c closes flush) ⟨_, moves⟩
  exact still.congr fun depth started => (Node.walk_still _ started).symm

/-- The clauses of a block end where the block does. -/
theorem clauses_balanced (reads : ReadsBodiesPlaced body) (balances : ReadsBalanced body)
    {limit : Nat} {before last : Cursor} {nodes : List Node} (flush : Text.Flush before.rest)
    (read : clauses body limit before = some (nodes, last)) :
    skipBlock 1 before = last.lineEnd := by
  obtain ⟨ending, ends, same, follows⟩ :=
    clauses_follow counts_flush (balances.follows reads) flush read
  have balanced := follows.balanced fun _ started => Node.walks_still _ started
  rw [balanced 1 (by simp), skipBlock_closed ((opens_of_at? ends).depthAfter_endIf ends 1), same]

/-- A block stops at its end, read or not. -/
theorem block_balanced (reads : ReadsBodiesPlaced body) (balances : ReadsBalanced body)
    {directive : Directive} (flush : Text.Flush c.rest)
    (named : Directive.at? c.rest = some directive) (starts : directive.opensBlock = true) :
    ((block body directive c).getD (errorBlock c)).2 = skipBlock 0 c := by
  cases read : block body directive c with
  | none => rfl
  | some found =>
    obtain ⟨-, ending, ends, same, follows⟩ :=
      block_inside counts_flush (balances.follows reads) flush starts read
    have balanced := follows.balanced fun _ started => Node.walks_still _ started
    rw [skipBlock_start named starts, balanced 1 (by simp),
      skipBlock_closed ((opens_of_at? ends).depthAfter_endIf ends 1), same]
    rfl

/-- What is read up to the end of a block leaves the block open. -/
theorem spans_balanced (limit : Nat) {ends : List Directive} (closes : .endIf ∈ ends) (c : Cursor)
    (flush : Text.Flush c.rest) : Balanced c (spans limit ends c).2 :=
  (spans_follow counts_flush limit closes c flush).balanced fun _ started => Node.walks_still _ started

end Source

end BmakeZig
