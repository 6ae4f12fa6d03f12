import BmakeZig.Proofs.Text.Cuts
import BmakeZig.Source.Cursor

/-! Where the moves of a cursor lead when the line it is on is known. -/
namespace BmakeZig.Source.Cursor

/-- `line` is unread of the current line, and `tail` stands from the next line on. -/
structure Faces (c : Cursor) (line tail : Text) : Prop where
  unread : c.rest = line ++ '\n' :: tail
  single : '\n' ∉ line

namespace Faces

variable {c : Cursor} {line tail : Text}

theorem here (faces : Faces c line tail) : c.here = line := by
  have taken : ∀ d ∈ line, (d != '\n') = true := fun d member => by
    have other : d ≠ '\n' := fun same => faces.single (same ▸ member)
    simpa using other
  rw [Cursor.here, faces.unread, Text.takeWhile_append_stop taken (by simp)]

theorem below (faces : Faces c line tail) : c.below = '\n' :: tail := by
  have whole := c.here_append_below
  rw [faces.here, faces.unread] at whole
  exact List.append_cancel_left whole

theorem nextLine (faces : Faces c line tail) : c.nextLine = ⟨c.line + 1, tail⟩ := by
  rw [Cursor.nextLine, faces.below]

theorem lineEnd (faces : Faces c line tail) : c.lineEnd.rest = '\n' :: tail :=
  faces.below

theorem within (faces : Faces c line tail) : (c.within []).rest = '\n' :: tail :=
  faces.below

end Faces

/-- Text that is over or goes on with something other than a blank. -/
def Starts (text : Text) : Prop :=
  ∀ c ∈ text.head?, Text.isBlank c = false

theorem Starts.dropWhile {text : Text} (starts : Starts text) :
    text.dropWhile Text.isBlank = text := by
  cases text with
  | nil => rfl
  | cons c rest => simp [starts c rfl]

theorem rest_skipBlank {c : Cursor} (starts : Starts c.rest) : c.skipBlank.rest = c.rest :=
  starts.dropWhile

theorem rest_skipBlank_newline {c : Cursor} {tail : Text} (unread : c.rest = '\n' :: tail)
    (starts : Starts tail) : c.skipBlank.rest = tail := by
  have blank : Text.isBlank '\n' = true := by decide
  rw [skipBlank, unread, List.dropWhile_cons_of_pos blank, starts.dropWhile]

/-! What lies between two places. -/

/-- The text leads from one place to the other. -/
structure Moves (c : Cursor) (text : Text) (stop : Cursor) : Prop where
  rest : c.rest = text ++ stop.rest
  line : stop.line = c.line + text.count '\n'

namespace Moves

variable {c middle stop : Cursor} {left right text : Text}

theorem none (c : Cursor) : Moves c [] c :=
  ⟨rfl, rfl⟩

theorem trans (first : Moves c left middle) (second : Moves middle right stop) :
    Moves c (left ++ right) stop where
  rest := by rw [first.rest, second.rest, List.append_assoc]
  line := by rw [second.line, first.line, List.count_append, Nat.add_assoc]

theorem upTo (moves : Moves c text stop) : c.upTo stop = text := by
  rw [Cursor.upTo, moves.rest, Text.consumed_append]

end Moves

theorem newline_not_mem_here (c : Cursor) : '\n' ∉ c.here := by
  intro member
  have other := List.mem_takeWhile_imp member
  simp at other

theorem moves_within {c : Cursor} {used left : Text} (split : c.here = used ++ left) :
    Moves c used (c.within left) where
  rest := by
    rw [within, ← List.append_assoc, ← split, here_append_below]
  line := by
    have single : '\n' ∉ used := fun member => c.newline_not_mem_here (by simp [split, member])
    rw [within, List.count_eq_zero.2 single, Nat.add_zero]

theorem moves_lineEnd (c : Cursor) : Moves c c.here c.lineEnd :=
  moves_within (List.append_nil _).symm

theorem moves_nextLine (c : Cursor) : ∃ ending, Moves c (c.here ++ ending) c.nextLine := by
  unfold nextLine
  split
  · next found =>
    refine ⟨[], (moves_lineEnd c).trans ⟨?_, rfl⟩⟩
    exact found
  · next first rest found =>
    have ended : first = '\n' := by
      have stopped := List.head?_dropWhile_not (· != '\n') c.rest
      rw [show c.rest.dropWhile (· != '\n') = first :: rest from found] at stopped
      simpa using stopped
    refine ⟨[first], (moves_lineEnd c).trans ⟨?_, ?_⟩⟩
    · exact found
    · simp [ended, lineEnd]

theorem moves_skipBlank (c : Cursor) : Moves c (c.rest.takeWhile Text.isBlank) c.skipBlank :=
  ⟨List.takeWhile_append_dropWhile.symm, rfl⟩

end BmakeZig.Source.Cursor
