import BmakeZig.Proofs.Text.Lines
import BmakeZig.Proofs.Tree.Like
import BmakeZig.Zig.Program

/-! Texts that have the same lines wherever they stand. A carriage return at the end of a line is of no
account once a text is laid out in a block. -/
namespace BmakeZig

namespace Text

variable {text other left right : Text}

/-- Put into any text, both give the same lines. -/
def SameLines (text other : Text) : Prop :=
  ∀ before after, lines (before ++ text ++ after) = lines (before ++ other ++ after)

namespace SameLines

theorem refl (text : Text) : SameLines text text :=
  fun _ _ => rfl

theorem symm (same : SameLines text other) : SameLines other text :=
  fun before after => (same before after).symm

theorem append {more more' : Text} (first : SameLines text other) (second : SameLines more more') :
    SameLines (text ++ more) (other ++ more') := by
  intro before after
  have moved := first before (more ++ after)
  have replaced := second (before ++ other) after
  simp only [List.append_assoc] at moved replaced ⊢
  rw [moved, replaced]

theorem joinWith {texts others : List Text} (separator : Text)
    (same : List.Forall₂ SameLines texts others) :
    SameLines (Text.joinWith separator texts) (Text.joinWith separator others) := by
  induction same with
  | nil => exact .refl []
  | cons first rest ih =>
    cases rest with
    | nil => exact first
    | cons => exact (first.append (.refl separator)).append ih

theorem lines_eq (same : SameLines text other) : lines text = lines other := by
  simpa using same [] []

end SameLines

theorem getLast?_ne_of_cons {c d : Char} (other : (d :: text).getLast? ≠ some c) :
    text.getLast? ≠ some c := by
  intro last
  rw [List.getLast?_cons, last] at other
  exact other rfl

/-- A character that does not start the end of a line is put in front of the first one. -/
theorem lines_cons_append {c d : Char} {front : Text} (newline : d ≠ '\n')
    (single : ∀ rest, d = '\r' → front = '\n' :: rest → False)
    (behind : front = [] → d = '\r' → c ≠ '\n') (more : Text) :
    lines (d :: (front ++ c :: more)) = consFirst d (lines (front ++ c :: more)) := by
  refine lines.eq_4 d _ newline fun rest marked found => ?_
  cases front with
  | nil => exact behind rfl marked (List.cons.inj found).1
  | cons e front =>
    obtain ⟨rfl, _⟩ := List.cons.inj found
    exact single front marked rfl

/-- A carriage return that stands alone before a line feed belongs to the end of the line. -/
theorem lines_return {front : Text} (alone : front.getLast? ≠ some '\r') (rest : Text) :
    lines (front ++ '\r' :: '\n' :: rest) = lines (front ++ '\n' :: rest) := by
  fun_induction lines front with
  | case1 => rfl
  | case2 front ih =>
    rw [List.cons_append, List.cons_append, lines, lines, ih (getLast?_ne_of_cons alone)]
  | case3 front ih =>
    have same := ih (getLast?_ne_of_cons (getLast?_ne_of_cons alone))
    simp only [List.cons_append, lines, same]
  | case4 c front newline single ih =>
    have same := ih (getLast?_ne_of_cons alone)
    rw [List.cons_append, List.cons_append, lines_cons_append newline single fun _ _ => by decide,
      lines_cons_append newline single fun empty marked => ?_, same]
    -- A carriage return in front of the added one would become part of the end of the line.
    subst empty marked
    exact absurd rfl alone

theorem sameLines_return (alone : left.getLast? ≠ some '\r') (filled : left ≠ []) (right : Text) :
    SameLines (left ++ '\r' :: '\n' :: right) (left ++ '\n' :: right) := by
  intro before after
  have last : (before ++ left).getLast? ≠ some '\r' := by
    rw [List.getLast?_append, List.getLast?_eq_some_getLast filled]
    simpa [List.getLast?_eq_some_getLast filled] using alone
  simpa using lines_return last (right ++ after)

/-- Nothing but blanks is on any line exactly where there is nothing else in the text. -/
theorem all_isBlank_lines (text : Text) :
    (lines text).all (·.all isBlank) = text.all isBlank := by
  have feed : isBlank '\n' = true ∧ isBlank '\r' = true := by decide
  fun_induction lines text with
  | case1 => rfl
  | case2 rest ih => simp [ih, feed.1]
  | case3 rest ih => simp [ih, feed.1, feed.2]
  | case4 c rest _ _ ih =>
    rw [List.all_cons, ← ih]
    cases lines rest with
    | nil => simp [consFirst]
    | cons first others => simp [consFirst, Bool.and_assoc]

/-! Texts whose lines are ended anew. -/

theorem mem_of_mem_lines {line : Text} {d : Char} (member : line ∈ lines text) (inside : d ∈ line) :
    d ∈ text := by
  fun_induction lines text generalizing line with
  | case1 => cases member
  | case2 rest ih =>
    rcases List.mem_cons.1 member with rfl | later
    · cases inside
    · exact List.mem_cons_of_mem _ (ih later inside)
  | case3 rest ih =>
    rcases List.mem_cons.1 member with rfl | later
    · cases inside
    · exact List.mem_cons_of_mem _ (List.mem_cons_of_mem _ (ih later inside))
  | case4 c rest _ _ ih =>
    rcases mem_of_mem_consFirst member inside with rfl | ⟨other, within, found⟩
    · exact List.mem_cons_self
    · exact List.mem_cons_of_mem _ (ih within found)

theorem lines_plain {c : Char} (newline : c ≠ '\n') (plain : c ≠ '\r') (text : Text) :
    lines (c :: text) = consFirst c (lines text) :=
  lines.eq_4 c text newline fun _ marked _ => plain marked

theorem lines_endLines (plain : '\r' ∉ text) : lines (endLines ['\r'] text) = lines text := by
  induction text with
  | nil => rfl
  | cons c text ih =>
    rw [List.mem_cons, not_or] at plain
    by_cases newline : c = '\n'
    · rw [newline, endLines_newline, lines, List.cons_append, List.nil_append, lines, ih plain.2]
    · rw [endLines_cons newline, lines_plain newline (Ne.symm plain.1),
        lines_plain newline (Ne.symm plain.1), ih plain.2]

/-- A carriage return behind a line that has begun is the last character of that line. -/
theorem lines_concat {front : Text} {c : Char} (newline : c ≠ '\n') :
    ∃ begun last, lines (front ++ [c]) = begun ++ [last] ∧
      lines (front ++ [c] ++ ['\r']) = begun ++ [last ++ ['\r']] := by
  fun_induction lines front with
  | case1 =>
    refine ⟨[], [c], ?_, ?_⟩
    · rw [List.nil_append, lines.eq_4 c [] newline (by simp)]
      rfl
    · rw [List.nil_append, List.singleton_append, lines.eq_4 c _ newline (by simp),
        lines.eq_4 '\r' [] (by decide) (by simp)]
      rfl
  | case2 front ih =>
    obtain ⟨begun, last, whole, ended⟩ := ih
    refine ⟨[] :: begun, last, ?_, ?_⟩
    · rw [List.cons_append, lines, whole, List.cons_append]
    · rw [List.cons_append, List.cons_append, lines, ended, List.cons_append]
  | case3 front ih =>
    obtain ⟨begun, last, whole, ended⟩ := ih
    refine ⟨[] :: begun, last, ?_, ?_⟩
    · simp only [List.cons_append, lines, whole]
    · simp only [List.cons_append, lines, ended]
  | case4 d front other single ih =>
    obtain ⟨begun, last, whole, ended⟩ := ih
    have apart : front ++ [c] ++ ['\r'] = front ++ c :: ['\r'] := by simp
    rw [List.cons_append, List.cons_append, lines_cons_append other single fun _ _ => newline, whole,
      apart, lines_cons_append other single fun _ _ => newline, ← apart, ended]
    cases begun with
    | nil => exact ⟨[], d :: last, rfl, rfl⟩
    | cons first begun => exact ⟨(d :: first) :: begun, last, rfl, rfl⟩

end Text

namespace Zig

variable {text other : Text}

theorem block_sameLines (same : Text.SameLines text other) : block text = block other := by
  rw [block, block, indent, indent, ← Text.all_isBlank_lines, ← Text.all_isBlank_lines other,
    same.lines_eq]

/-- The lines of a text behind a mark each, up to the end of a line. -/
theorem marked_sameLines {mark : Text} (ends : mark.getLast? = some ' ') (plain : '\r' ∉ text)
    (rewritten : Text.Rewritten ['\r'] text other) (opening closing : Text) :
    Text.SameLines (opening ++ (Text.lines other).flatMap (mark ++ ·) ++ '\n' :: closing)
      (opening ++ (Text.lines text).flatMap (mark ++ ·) ++ '\n' :: closing) := by
  rcases rewritten with rfl | ⟨rfl, front, c, rfl, newline⟩
  · rw [Text.lines_endLines plain]
    exact .refl _
  · obtain ⟨begun, last, whole, ended⟩ := @Text.lines_concat (Text.endLines ['\r'] front) c newline
    have same : Text.lines (front ++ [c]) = begun ++ [last] := by
      rw [← Text.lines_endLines plain, Text.endLines_append, Text.endLines_cons newline]
      exact whole
    have split : Text.endLines ['\r'] (front ++ [c]) = Text.endLines ['\r'] front ++ [c] := by
      rw [Text.endLines_append, Text.endLines_cons newline]
      rfl
    -- The added carriage return stands alone: the line has none, and the mark ends in a space.
    have clean : '\r' ∉ last := fun member =>
      plain (Text.mem_of_mem_lines (by rw [same]; exact List.mem_append_right _ List.mem_cons_self) member)
    have filled : mark ++ last ≠ [] := by
      intro empty
      rw [(List.append_eq_nil_iff.1 empty).1] at ends
      cases ends
    have alone : (mark ++ last).getLast? ≠ some '\r' := by
      rw [List.getLast?_append, ends]
      cases final : last.getLast? with
      | none => decide
      | some d =>
        intro marked
        obtain rfl := Option.some.inj marked
        exact clean (List.mem_of_getLast? final)
    have replaced := (Text.SameLines.refl (opening ++ begun.flatMap (mark ++ ·))).append
      (Text.sameLines_return alone filled closing)
    rw [split, ended, same]
    simpa [List.flatMap_append] using replaced

theorem unreadSpan_sameLines (plain : '\r' ∉ text) (rewritten : Text.Rewritten ['\r'] text other)
    (line : Nat) : Text.SameLines (unreadSpan other line) (unreadSpan text line) := by
  have closing : "\n// ==== end malformed bmake ====".toList =
      '\n' :: "// ==== end malformed bmake ====".toList := by decide
  unfold unreadSpan
  rw [closing]
  exact marked_sameLines (by decide) plain rewritten _ _

theorem program_sameLines (same : Text.SameLines text other) (initial : List (Text × Text))
    (usesBuilder : Bool) : program text initial usesBuilder = program other initial usesBuilder := by
  have statements : block (if usesBuilder then text else "_ = b;\n".toList ++ text) =
      block (if usesBuilder then other else "_ = b;\n".toList ++ other) := by
    split
    · exact block_sameLines same
    · exact block_sameLines ((Text.SameLines.refl _).append same)
  simp only [program, statements]

end Zig

end BmakeZig
