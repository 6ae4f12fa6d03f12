import BmakeZig.Text.Basic

/-! A place in a source: the number of the line it is on, counted from one, and the source still
unread there. -/
namespace BmakeZig.Source

structure Cursor where
  line : Nat
  rest : Text
deriving DecidableEq, Repr

namespace Cursor

def start (source : Text) : Cursor :=
  ⟨1, source⟩

/-- What is unread of the current line. -/
def here (c : Cursor) : Text :=
  c.rest.takeWhile (· != '\n')

/-- What is unread from the end of the current line on. -/
def below (c : Cursor) : Text :=
  c.rest.dropWhile (· != '\n')

def lineEnd (c : Cursor) : Cursor :=
  ⟨c.line, c.below⟩

/-- The start of the next line, or the end of the source on the last one. -/
def nextLine (c : Cursor) : Cursor :=
  match c.below with
  | [] => ⟨c.line, []⟩
  | _ :: rest => ⟨c.line + 1, rest⟩

/-- The place on the current line at which `left` is unread of it. -/
def within (c : Cursor) (left : Text) : Cursor :=
  ⟨c.line, left ++ c.below⟩

def skipBlank (c : Cursor) : Cursor :=
  ⟨c.line + (c.rest.takeWhile Text.isBlank).count '\n', c.rest.dropWhile Text.isBlank⟩

/-- The source from `c` up to a later place. -/
def upTo (c stop : Cursor) : Text :=
  Text.consumed c.rest stop.rest

theorem here_append_below (c : Cursor) : c.here ++ c.below = c.rest :=
  List.takeWhile_append_dropWhile

theorem length_below_le (c : Cursor) : c.below.length ≤ c.rest.length :=
  Text.length_dropWhile_le _ _

theorem length_of_below {c : Cursor} {first : Char} {rest : Text}
    (found : c.below = first :: rest) : rest.length < c.rest.length := by
  have shorter := c.length_below_le
  simp only [found, List.length_cons] at shorter
  omega

theorem length_nextLine_lt {c : Cursor} (some_left : c.rest ≠ []) :
    c.nextLine.rest.length < c.rest.length := by
  have shorter := c.length_below_le
  unfold nextLine
  split
  · exact List.length_pos_iff.2 some_left
  · next found => simp only [found, List.length_cons] at shorter; simp only; omega

end Cursor

end BmakeZig.Source
