import BmakeZig.Proofs.Source.Echo.Cursor
import BmakeZig.Proofs.Source.Echo.Line
import BmakeZig.Proofs.Source.Placement.Rule

/-! Rules, read further down and with other line ends. -/
namespace BmakeZig.Source

variable {ending : Text} {c : Cursor} (count : Nat)

/-- What one reader of statements finds is like what the other one does, and they stop at the same
place. An unread span that stops at the end of a line holds something of that line. -/
structure Agrees (count : Nat) (ending : Text) (found found' : Node × Cursor) : Prop where
  like : Node.Like count ending found.1 found'.1
  meets : Cursor.Meets count ending found.2 found'.2
  unread : found.1.kind = .error → ∀ below, found.2.rest = '\n' :: below →
    ∃ front d, found.1.text = front ++ [d] ∧ d ≠ '\n'

theorem rel_split {α β : Type} {related : α → β → Prop} {found : Option α} {found' : Option β}
    (rel : Option.Rel related found found') :
    (found = none ∧ found' = none) ∨
      ∃ value value', found = some value ∧ found' = some value' ∧ related value value' := by
  cases rel with
  | none => exact .inl ⟨rfl, rfl⟩
  | some holds => exact .inr ⟨_, _, rfl, rfl, holds⟩

theorem agrees_getD {read read' : Option (Node × Cursor)} {fallback fallback' : Node × Cursor}
    (agree : Option.Rel (Agrees count ending) read read')
    (unread : Agrees count ending fallback fallback') :
    Agrees count ending (read.getD fallback) (read'.getD fallback') := by
  cases agree with
  | none => exact unread
  | some agrees => exact agrees

theorem filledLine_last (blank : c.here.all Text.isBlank = true) (last : c.below = []) :
    filledLine c = none := by
  rw [filledLine, if_neg (by simp [blank])]
  split
  · rfl
  · next found => simp [last] at found

theorem filledLine_blank (blank : c.here.all Text.isBlank = true) (more : c.below ≠ []) :
    filledLine c = filledLine c.nextLine := by
  rw [filledLine, if_neg (by simp [blank])]
  split
  · next last => exact absurd last more
  · next rest found =>
    have next : c.nextLine = ⟨c.line + 1, rest⟩ := by rw [Cursor.nextLine, found]
    rw [next]

theorem ruleBody_eq (c : Cursor) :
    ruleBody c = (.branch .ruleBody c.line
      (if (bodyEntries c).1 = [] then [] else Text.trimEnd (c.upTo (bodyEntries c).2))
      (bodyEntries c).1, (bodyEntries c).2) := by
  unfold ruleBody
  split
  · next same =>
    rw [same]
    rfl
  · next filled same =>
    rw [same, if_neg fun empty => filled empty]

variable (spaces : ∀ c ∈ ending, Text.isSpace c = true)

include spaces

theorem here_blank_recast (c : Cursor) :
    (c.recast count ending).here.all Text.isBlank = c.here.all Text.isBlank := by
  have blank : (c.lineTail ending).all Text.isBlank = true :=
    List.all_eq_true.2 fun d member =>
      Text.isBlank_of_isSpace (Cursor.lineTail_spaces spaces c d member)
  rw [Cursor.here_recast spaces, List.all_append, blank, Bool.and_true]

theorem filledLine_recast (c : Cursor) :
    filledLine (c.recast count ending) = (filledLine c).map (Cursor.recast count ending) := by
  fun_induction filledLine c with
  | case1 c filled =>
    rw [filledLine, here_blank_recast count spaces, if_pos filled]
    rfl
  | case2 c blank last =>
    simp only [Bool.not_eq_true', Bool.not_eq_false] at blank
    rw [filledLine_last ((here_blank_recast count spaces c).trans blank)
      (Cursor.below_recast_last last)]
    rfl
  | case3 c blank first rest below shorter ih =>
    simp only [Bool.not_eq_true', Bool.not_eq_false] at blank
    have next : c.nextLine = ⟨c.line + 1, rest⟩ := by rw [Cursor.nextLine, below]
    rw [filledLine_blank ((here_blank_recast count spaces c).trans blank)
      (Cursor.below_recast_ne spaces (by simp [below])), Cursor.nextLine_recast spaces, next, ih]

/-- A line of the body is indented, so it does not start with the ending of an empty line. -/
theorem bodyLine_recast (c : Cursor) :
    bodyLine (c.recast count ending) = (bodyLine c).map (Cursor.recast count ending) := by
  unfold bodyLine
  rw [filledLine_recast count spaces]
  cases found : filledLine c with
  | none => rfl
  | some filled =>
    -- Whether the line is indented shows in its first character, which is the same in both.
    obtain ⟨-, d, member, solid⟩ := filledLine_moves found
    obtain ⟨first, rest, here⟩ := List.exists_cons_of_ne_nil (List.ne_nil_of_mem member)
    have unread : filled.rest = first :: (rest ++ filled.below) := by
      rw [← filled.here_append_below, here, List.cons_append]
    have other : first ≠ '\n' := by
      rintro rfl
      exact filled.newline_not_mem_here (by simp [here])
    have same : (filled.recast count ending).rest =
        first :: Text.endLines ending (rest ++ filled.below) := by
      rw [Cursor.recast, unread, Text.endLines_cons other]
    simp only [Option.map_some, Option.filter_some, unread, same]
    split <;> simp_all

theorem bodyEntries_recast (c : Cursor) :
    bodyEntries (c.recast count ending) =
      ((bodyEntries c).1.map (Node.shift count), (bodyEntries c).2.recast count ending) := by
  have line := bodyLine_recast count spaces c
  fun_induction bodyEntries c with
  | case1 c finished =>
    rw [finished] at line
    rw [bodyEntries]
    split
    · rfl
    · next found => cases line.symm.trans found
  | case2 c filled found shorter rest ih =>
    rw [found] at line
    have inside : Text.Trails (filled.lineTail ending) (Text.skipSpaces filled.here)
        (Text.skipSpaces (filled.recast count ending).here) := by
      rw [Cursor.here_recast spaces]
      exact (Text.trails_append _ filled.here).skipSpaces (Cursor.lineTail_spaces spaces filled)
    have entry := bodyEntry_trails filled.line count (Cursor.lineTail_spaces spaces filled) inside
    have more := ih (bodyLine_recast count spaces filled.nextLine)
    rw [← Cursor.nextLine_recast spaces] at more
    rw [bodyEntries]
    split
    · next nothing => cases line.symm.trans nothing
    · next again =>
      obtain rfl := Option.some.inj (again.symm.trans line)
      simp only [more, List.map_cons]
      rw [Cursor.line_recast, entry]

theorem ruleBody_like (c : Cursor) :
    Node.Like count ending (ruleBody c).1 (ruleBody (c.recast count ending)).1 ∧
      (ruleBody (c.recast count ending)).2 = (ruleBody c).2.recast count ending := by
  obtain ⟨text, moves, -, -⟩ := bodyEntries_placed c
  have others := bodyEntries_recast count spaces c
  have span : Text.trimEnd ((c.recast count ending).upTo ((bodyEntries c).2.recast count ending)) =
      Text.endLines ending (Text.trimEnd (c.upTo (bodyEntries c).2)) := by
    rw [moves.upTo, (moves.recast spaces).upTo, Text.trimEnd_endLines spaces]
  rw [ruleBody_eq c, ruleBody_eq, others]
  refine ⟨.span rfl (.inl ?_) (Node.likes_shift ending _), rfl⟩
  simp only [List.map_eq_nil_iff, span]
  split <;> rfl

theorem rule_agrees (c : Cursor) :
    Option.Rel (Agrees count ending) (rule c) (rule (c.recast count ending)) := by
  have header := ruleHeader_trails c.line count (Cursor.lineTail_spaces spaces c) c.here
  rw [← Cursor.here_recast spaces] at header
  unfold rule
  rw [Cursor.line_recast, header]
  cases ruleHeader c.line c.here with
  | none => exact .none
  | some nodes =>
    obtain ⟨like, stop⟩ := ruleBody_like count spaces c.nextLine
    rw [← Cursor.nextLine_recast spaces] at like stop
    obtain ⟨line, next⟩ := c.moves_nextLine
    obtain ⟨behind, inside, -, -⟩ := ruleBody_placed c.nextLine
    have whole := next.trans inside
    refine .some ⟨.span rfl (.inl ?_) ?_, ?_, ?_⟩
    · rw [stop, whole.upTo, (whole.recast spaces).upTo]
    · exact List.rel_append (Node.likes_shift ending nodes) (.cons like .nil)
    · rw [stop]
      exact .same _
    · intro unread
      cases unread

end BmakeZig.Source
