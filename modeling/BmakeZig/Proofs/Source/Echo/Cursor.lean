import BmakeZig.Proofs.Source.Cursor
import BmakeZig.Proofs.Source.Words
import BmakeZig.Proofs.Tree.Like

/-! A source further down and with its lines ended in another way, place by place. Every move of a cursor
leads to the same place there, but for the ends of lines: a line that is read to its end is read to behind
the ending as well. -/
namespace BmakeZig

namespace Text

variable {ending text : Text} (spaces : ∀ c ∈ ending, isSpace c = true)

include spaces

theorem name?_endLines (text : Text) :
    (name? (endLines ending text)).map (·.1) = (name? text).map (·.1) := by
  have stops : ∀ c, isSpace c = true ∨ c = '\n' → isNameChar c = false := by
    rintro c (space | rfl)
    · exact isNameChar_of_isSpace space
    · decide
  cases text with
  | nil => rfl
  | cons c text =>
    by_cases newline : c = '\n'
    · subst newline
      rw [endLines_newline]
      cases ending with
      | nil => rfl
      | cons d ending =>
        have start := isNameStart_of_isSpace (spaces d List.mem_cons_self)
        simp [name?, start, show isNameStart '\n' = false by decide]
    · rw [endLines_cons newline, name?, name?]
      split
      · rw [Option.map_some, Option.map_some, takeWhile_endLines spaces stops]
      · rfl

theorem blanks_endLines (text : Text) :
    (endLines ending text).takeWhile isBlank = endLines ending (text.takeWhile isBlank) ∧
      (endLines ending text).dropWhile isBlank = endLines ending (text.dropWhile isBlank) := by
  have blanks : ∀ c ∈ endLines ending (text.takeWhile isBlank), isBlank c = true := fun c member =>
    isBlank_of_mem_endLines spaces (fun d inside => List.mem_takeWhile_imp inside) member
  have stops : ∀ c ∈ (endLines ending (text.dropWhile isBlank)).head?, isBlank c = false := by
    cases kept : text.dropWhile isBlank with
    | nil => simp
    | cons c rest =>
      have solid := List.head?_dropWhile_not isBlank text
      rw [kept] at solid
      simp only [List.head?_cons] at solid
      -- What is kept starts with no line feed, so no ending comes in front of it.
      have other : c ≠ '\n' := by
        rintro rfl
        exact absurd solid (by decide)
      rw [endLines_cons other]
      simpa using solid
  have split : endLines ending text =
      endLines ending (text.takeWhile isBlank) ++ endLines ending (text.dropWhile isBlank) := by
    rw [← endLines_append, List.takeWhile_append_dropWhile]
  rw [split]
  exact ⟨takeWhile_append_stop blanks stops, dropWhile_append_stop blanks stops⟩

end Text

namespace Source

theorem Directive.at?_endLines {ending : Text} (spaces : ∀ c ∈ ending, Text.isSpace c = true)
    (text : Text) : at? (Text.endLines ending text) = at? text := by
  cases text with
  | nil => rfl
  | cons c text =>
    by_cases newline : c = '\n'
    · subst newline
      rw [Text.endLines_newline]
      cases ending with
      | nil => rfl
      | cons d ending =>
        have other : d ≠ '%' := Text.ne_of_isSpace (spaces d List.mem_cons_self) (by decide)
        simp [at?, other]
    · rw [Text.endLines_cons newline]
      by_cases percent : c = '%'
      · subst percent
        have same := Text.name?_endLines spaces text
        simp only [at?]
        cases found : Text.name? text <;> cases found' : Text.name? (Text.endLines ending text) <;>
          simp_all
      · simp [at?, percent]

namespace Cursor

variable {ending left left' text line rest : Text} {c stop stop' : Cursor} {count : Nat}

/-- The place in a source that is `count` lines further down and has its lines ended so. -/
def recast (count : Nat) (ending : Text) (c : Cursor) : Cursor :=
  ⟨c.line + count, Text.endLines ending c.rest⟩

theorem line_recast (count : Nat) (ending : Text) (c : Cursor) :
    (c.recast count ending).line = c.line + count :=
  rfl

/-- What the line is ended with there: nothing on the last line. -/
def lineTail (ending : Text) (c : Cursor) : Text :=
  if c.below = [] then [] else ending

/-- The same place, or the two ends of one line. -/
inductive Meets (count : Nat) (ending : Text) : Cursor → Cursor → Prop where
  | same (stop : Cursor) : Meets count ending stop (stop.recast count ending)
  | ended (line : Nat) (below : Text) :
      Meets count ending ⟨line, '\n' :: below⟩ ⟨line + count, '\n' :: Text.endLines ending below⟩

/-- A line is the last one, or another one follows. -/
theorem last_or_faces (c : Cursor) :
    (c.below = [] ∧ c.rest = c.here) ∨ ∃ rest, c.below = '\n' :: rest ∧ c.Faces c.here rest := by
  have whole := c.here_append_below
  cases found : c.below with
  | nil =>
    rw [found, List.append_nil] at whole
    exact .inl ⟨rfl, whole.symm⟩
  | cons first rest =>
    have ended : first = '\n' := by
      have stopped := List.head?_dropWhile_not (· != '\n') c.rest
      rw [show c.rest.dropWhile (· != '\n') = first :: rest from found] at stopped
      simpa using stopped
    subst ended
    exact .inr ⟨rest, rfl, by rw [← whole, found], c.newline_not_mem_here⟩

theorem here_of_single (single : '\n' ∉ c.rest) : c.here = c.rest ∧ c.below = [] := by
  have taken : ∀ d ∈ c.rest, (d != '\n') = true := fun d member => by
    have other : d ≠ '\n' := fun same => single (same ▸ member)
    simpa using other
  exact ⟨List.takeWhile_eq_self_iff.2 taken, List.dropWhile_eq_nil_iff.2 taken⟩

theorem here_concat (filled : c.here ≠ []) : ∃ front d, c.here = front ++ [d] ∧ d ≠ '\n' := by
  refine ⟨c.here.dropLast, c.here.getLast filled, (List.dropLast_append_getLast filled).symm, ?_⟩
  intro newline
  exact c.newline_not_mem_here (newline ▸ List.getLast_mem filled)

theorem below_recast_last (last : c.below = []) : (c.recast count ending).below = [] := by
  rcases c.last_or_faces with ⟨_, whole⟩ | ⟨rest, below, _⟩
  · have single : '\n' ∉ c.rest := whole ▸ c.newline_not_mem_here
    have unread : (c.recast count ending).rest = c.rest := Text.endLines_of_not_mem single
    exact (here_of_single (unread ▸ single)).2
  · simp [below] at last

section

variable (spaces : ∀ c ∈ ending, Text.isSpace c = true)

include spaces

theorem lineTail_spaces (c : Cursor) : ∀ d ∈ c.lineTail ending, Text.isSpace d = true := by
  intro d member
  unfold lineTail at member
  split at member
  · cases member
  · exact spaces d member

theorem Faces.recast (faces : c.Faces line rest) :
    (c.recast count ending).Faces (line ++ ending) (Text.endLines ending rest) where
  unread := by
    rw [Cursor.recast, faces.unread, Text.endLines_append, Text.endLines_of_not_mem faces.single,
      Text.endLines_newline, List.append_assoc]
  single := by
    rw [List.mem_append, not_or]
    exact ⟨faces.single, fun member => absurd (spaces '\n' member) (by decide)⟩

theorem here_recast (c : Cursor) : (c.recast count ending).here = c.here ++ c.lineTail ending := by
  rcases c.last_or_faces with ⟨last, whole⟩ | ⟨rest, below, faces⟩
  · have single : '\n' ∉ c.rest := whole ▸ c.newline_not_mem_here
    have unread : (c.recast count ending).rest = c.rest := Text.endLines_of_not_mem single
    rw [lineTail, if_pos last, List.append_nil, (here_of_single (unread ▸ single)).1, unread, whole]
  · rw [(faces.recast spaces).here, lineTail, if_neg (by simp [below])]

theorem below_recast (below : c.below = '\n' :: rest) :
    (c.recast count ending).below = '\n' :: Text.endLines ending rest := by
  rcases c.last_or_faces with ⟨last, _⟩ | ⟨rest', below', faces⟩
  · simp [below] at last
  · obtain rfl := (List.cons.inj (below.symm.trans below')).2
    exact (faces.recast spaces).below

theorem below_recast_ne (more : c.below ≠ []) : (c.recast count ending).below ≠ [] := by
  rcases c.last_or_faces with ⟨last, _⟩ | ⟨rest, below, _⟩
  · exact absurd last more
  · simp [below_recast spaces below]

theorem nextLine_recast (c : Cursor) :
    (c.recast count ending).nextLine = c.nextLine.recast count ending := by
  rcases c.last_or_faces with ⟨last, _⟩ | ⟨rest, below, _⟩
  · rw [nextLine, below_recast_last last, nextLine, last]
    rfl
  · rw [nextLine, below_recast spaces below, nextLine, below]
    simp only [recast, Nat.add_right_comm]

/-- Where some of a line is left, the ending is left with it. -/
theorem within_recast (single : '\n' ∉ left) (c : Cursor) :
    (c.recast count ending).within (left ++ c.lineTail ending) = (c.within left).recast count ending := by
  have left_alone := @Text.endLines_of_not_mem ending left single
  rcases c.last_or_faces with ⟨last, _⟩ | ⟨rest, below, _⟩
  · rw [within, below_recast_last last, lineTail, if_pos last, within, last]
    simp only [recast, List.append_nil, left_alone]
  · rw [within, below_recast spaces below, lineTail, if_neg (by simp [below]), within, below]
    simp only [recast, Text.endLines_append, left_alone, Text.endLines_newline, List.append_assoc]

theorem within_meets (single : '\n' ∉ left) (c : Cursor)
    (trails : Text.Trails (c.lineTail ending) left left') :
    Meets count ending (c.within left) ((c.recast count ending).within left') := by
  rcases trails with rfl | ⟨rfl, rfl⟩
  · rw [within_recast spaces single]
    exact .same _
  -- All of the line was read, so one place is in front of the ending and the other one behind it.
  · rcases c.last_or_faces with ⟨last, _⟩ | ⟨rest, below, _⟩
    · have same := @within_recast ending [] count spaces single c
      rw [lineTail, if_pos last, List.append_nil] at same
      rw [same]
      exact .same _
    · simp only [within, below, below_recast spaces below, List.nil_append]
      exact .ended c.line rest

theorem lineEnd_meets (c : Cursor) :
    Meets count ending c.lineEnd (c.recast count ending).lineEnd :=
  within_meets spaces (by simp) c (.inr ⟨rfl, rfl⟩)

theorem skipBlank_recast (c : Cursor) :
    (c.recast count ending).skipBlank = c.skipBlank.recast count ending := by
  obtain ⟨taken, dropped⟩ := Text.blanks_endLines spaces c.rest
  simp only [skipBlank, recast, taken, dropped, Text.count_endLines spaces, Nat.add_right_comm]

/-- Behind the blanks that follow, the places are the same again. -/
theorem Meets.skipBlank (meets : Meets count ending stop stop') :
    stop'.skipBlank = stop.skipBlank.recast count ending := by
  cases meets with
  | same => exact skipBlank_recast spaces stop
  | ended line below =>
    have blank : Text.isBlank '\n' = true := by decide
    obtain ⟨taken, dropped⟩ := Text.blanks_endLines spaces below
    simp only [Cursor.skipBlank, recast, List.takeWhile_cons_of_pos blank,
      List.dropWhile_cons_of_pos blank, taken, dropped, List.count_cons, Text.count_endLines spaces,
      Nat.add_right_comm]

theorem at?_recast (c : Cursor) :
    Directive.at? (c.recast count ending).rest = Directive.at? c.rest :=
  Directive.at?_endLines spaces c.rest

theorem Moves.recast (moves : c.Moves text stop) :
    (c.recast count ending).Moves (Text.endLines ending text) (stop.recast count ending) where
  rest := by simp only [Cursor.recast, moves.rest, Text.endLines_append]
  line := by simp only [Cursor.recast, moves.line, Text.count_endLines spaces, Nat.add_right_comm]

/-- What lies between two places, when the text between them does not stop at a line that is empty. -/
theorem Moves.rewritten (moves : c.Moves text stop) (meets : Meets count ending stop stop')
    (filled : ∀ below, stop.rest = '\n' :: below → ∃ front d, text = front ++ [d] ∧ d ≠ '\n') :
    Text.Rewritten ending text ((c.recast count ending).upTo stop') := by
  cases meets with
  | same => exact .inl (moves.recast spaces).upTo
  -- The ending of the last line lies between the places too.
  | ended line below =>
    refine .inr ⟨?_, filled below rfl⟩
    have unread : (c.recast count ending).rest =
        (Text.endLines ending text ++ ending) ++ '\n' :: Text.endLines ending below := by
      rw [Cursor.recast, moves.rest, Text.endLines_append, Text.endLines_newline, List.append_assoc]
    rw [Cursor.upTo, unread, Text.consumed_append]

theorem rewritten_here (filled : c.here ≠ []) :
    Text.Rewritten ending c.here (c.recast count ending).here := by
  have single := @Text.endLines_of_not_mem ending c.here c.newline_not_mem_here
  rw [here_recast spaces, lineTail]
  split
  · exact .inl (by rw [single, List.append_nil])
  · exact .inr ⟨by rw [single], here_concat filled⟩

end

end Cursor

end Source

end BmakeZig
