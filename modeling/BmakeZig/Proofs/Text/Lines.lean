import BmakeZig.Proofs.Text.Cuts
import BmakeZig.Text.Basic

/-! Texts cut into lines. Cutting at a mark undoes joining with it; and the lines of a text are the
texts between its line feeds, up to blanks at their ends and an empty last one. -/
namespace BmakeZig.Text

variable {mark c : Char} {text line : Text}

theorem splitOn_ne_nil (mark : Char) (text : Text) : splitOn mark text ≠ [] := by
  cases text with
  | nil => simp [splitOn]
  | cons c text =>
    rw [splitOn]
    split
    · simp
    · unfold consFirst
      split <;> simp

theorem consFirst_append {texts : List Text} (filled : texts ≠ []) (c : Char) (more : List Text) :
    consFirst c (texts ++ more) = consFirst c texts ++ more := by
  cases texts with
  | nil => simp at filled
  | cons first rest => rfl

theorem splitOn_append (mark : Char) (left right : Text) :
    splitOn mark (left ++ mark :: right) = splitOn mark left ++ splitOn mark right := by
  induction left with
  | nil => simp [splitOn]
  | cons c left ih =>
    rw [List.cons_append, splitOn, splitOn, ih]
    split
    · rfl
    · exact consFirst_append (splitOn_ne_nil mark left) c _

theorem splitOn_of_not_mem (absent : mark ∉ text) : splitOn mark text = [text] := by
  induction text with
  | nil => rfl
  | cons c text ih =>
    rw [List.mem_cons, not_or] at absent
    rw [splitOn, if_neg (Ne.symm absent.1), ih absent.2]
    rfl

theorem mem_of_mem_consFirst {texts : List Text} {d : Char} (member : line ∈ consFirst c texts)
    (inside : d ∈ line) : d = c ∨ ∃ other ∈ texts, d ∈ other := by
  cases texts with
  | nil =>
    rw [consFirst, List.mem_singleton] at member
    subst member
    exact .inl (List.mem_singleton.1 inside)
  | cons first rest =>
    rcases List.mem_cons.1 member with rfl | later
    · rcases List.mem_cons.1 inside with rfl | within
      · exact .inl rfl
      · exact .inr ⟨first, List.mem_cons_self, within⟩
    · exact .inr ⟨line, List.mem_cons_of_mem _ later, inside⟩

theorem mem_of_mem_splitOn (member : line ∈ splitOn mark text) (inside : c ∈ line) : c ∈ text := by
  induction text generalizing line with
  | nil => simp_all [splitOn]
  | cons d text ih =>
    rw [splitOn] at member
    split at member
    · rcases List.mem_cons.1 member with rfl | later
      · simp at inside
      · exact List.mem_cons_of_mem _ (ih later inside)
    · rcases mem_of_mem_consFirst member inside with rfl | ⟨other, within, found⟩
      · exact List.mem_cons_self
      · exact List.mem_cons_of_mem _ (ih within found)

theorem joinWith_consFirst {texts : List Text} (filled : texts ≠ []) (separator : Text) (c : Char) :
    joinWith separator (consFirst c texts) = c :: joinWith separator texts := by
  match texts, filled with
  | [text], _ => rfl
  | text :: next :: rest, _ => rfl

theorem joinWith_splitOn (mark : Char) (text : Text) :
    joinWith [mark] (splitOn mark text) = text := by
  induction text with
  | nil => rfl
  | cons c text ih =>
    have filled := splitOn_ne_nil mark text
    rw [splitOn]
    split
    · next same =>
      obtain ⟨first, rest, split⟩ := List.exists_cons_of_ne_nil filled
      rw [split] at ih ⊢
      rw [joinWith, ih, same]
      · rfl
      · simp
    · rw [joinWith_consFirst filled, ih]

theorem not_mem_of_mem_splitOn (member : line ∈ splitOn mark text) : mark ∉ line := by
  induction text generalizing line with
  | nil =>
    rw [splitOn, List.mem_singleton] at member
    rw [member]
    exact List.not_mem_nil
  | cons c text ih =>
    intro inside
    rw [splitOn] at member
    split at member
    · rcases List.mem_cons.1 member with rfl | later
      · cases inside
      · exact ih later inside
    · next other =>
      rcases mem_of_mem_consFirst member inside with same | ⟨_, within, found⟩
      · exact other same.symm
      · exact ih within found

theorem newline_not_mem_lines (member : line ∈ lines text) : '\n' ∉ line := by
  fun_induction lines text generalizing line with
  | case1 => simp at member
  | case2 rest ih =>
    rcases List.mem_cons.1 member with rfl | later
    · simp
    · exact ih later
  | case3 rest ih =>
    rcases List.mem_cons.1 member with rfl | later
    · simp
    · exact ih later
  | case4 c rest newline _ ih =>
    intro inside
    rcases mem_of_mem_consFirst member inside with same | ⟨other, within, found⟩
    · exact newline same.symm
    · exact ih within found

/-! Blanks at the end of a line. -/

theorem trimEnd_cons_congr {left right : Text} (same : trimEnd left = trimEnd right) (c : Char) :
    trimEnd (c :: left) = trimEnd (c :: right) := by
  simp only [trimEnd] at same ⊢
  rw [dropEndWhile, dropEndWhile, same]

theorem map_trimEnd_consFirst {left right : List Text} (filled : left ≠ [] ∧ right ≠ [])
    (same : left.map trimEnd = right.map trimEnd) (c : Char) :
    (consFirst c left).map trimEnd = (consFirst c right).map trimEnd := by
  obtain ⟨first, left, rfl⟩ := List.exists_cons_of_ne_nil filled.1
  obtain ⟨second, right, rfl⟩ := List.exists_cons_of_ne_nil filled.2
  rw [List.map_cons, List.map_cons, List.cons.injEq] at same
  rw [consFirst, consFirst, List.map_cons, List.map_cons, same.2, trimEnd_cons_congr same.1]

theorem lines_cons_ne_nil (c : Char) (text : Text) : lines (c :: text) ≠ [] := by
  unfold lines
  split
  · simp_all
  · simp
  · simp
  · unfold consFirst
    split <;> simp

/-- A text that ends in a line feed has one more text between its line feeds than it has lines, an
empty one. -/
theorem map_trimEnd_splitOn (text : Text) : ∃ rest : List Text, (rest = [] ∨ rest = [[]]) ∧
    (splitOn '\n' text).map trimEnd = (lines text).map trimEnd ++ rest := by
  fun_induction lines text with
  | case1 => exact ⟨[[]], .inr rfl, rfl⟩
  | case2 rest ih =>
    obtain ⟨last, kind, same⟩ := ih
    refine ⟨last, kind, ?_⟩
    rw [splitOn, if_pos rfl, List.map_cons, same]
    rfl
  | case3 rest ih =>
    obtain ⟨last, kind, same⟩ := ih
    refine ⟨last, kind, ?_⟩
    rw [splitOn, if_neg (by decide), splitOn, if_pos rfl, consFirst, List.map_cons, same]
    rfl
  | case4 c rest newline _ ih =>
    obtain ⟨last, kind, same⟩ := ih
    rw [splitOn, if_neg newline]
    cases rest with
    | nil => exact ⟨[], .inl rfl, rfl⟩
    | cons d rest =>
      have filled := lines_cons_ne_nil d rest
      refine ⟨last, kind, ?_⟩
      have trimmed : last.map trimEnd = last := by rcases kind with rfl | rfl <;> rfl
      rw [← trimmed, ← List.map_append] at same ⊢
      rw [map_trimEnd_consFirst ⟨splitOn_ne_nil _ _, by simp [filled]⟩ same,
        consFirst_append filled]

theorem trimEnd_blank (blanks : ∀ c ∈ text, isBlank c = true) : trimEnd text = [] := by
  have cut := trimEnd_append_blanks blanks []
  rwa [List.nil_append] at cut

/-- Blanks in front of a line do not keep those at its end. -/
theorem trimStart_trimEnd_append {gap : Text} (blanks : ∀ c ∈ gap, isBlank c = true) (text : Text) :
    trimStart (trimEnd (gap ++ text)) = trimStart (trimEnd text) := by
  obtain ⟨ending, whole, all, kept⟩ := trimEnd_split text
  rcases kept with empty | firm
  · rw [empty, List.nil_append] at whole
    have blank : ∀ c ∈ gap ++ text, isBlank c = true := by
      intro c member
      rcases List.mem_append.1 member with inside | inside
      · exact blanks c inside
      · rw [whole] at inside
        exact all c inside
    rw [empty, trimEnd_blank blank]
  · have cut : trimEnd (gap ++ text) = gap ++ trimEnd text := by
      conv_lhs => rw [whole, ← List.append_assoc]
      rw [trimEnd_append_blanks all, (firm.append_left gap).trimEnd_eq]
    rw [cut, trimStart, List.dropWhile_append_of_pos blanks, ← trimStart]

end BmakeZig.Text
