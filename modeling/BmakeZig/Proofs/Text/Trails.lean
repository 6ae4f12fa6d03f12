import BmakeZig.Proofs.Text.Cuts

/-! Spaces at the end of a text. Words, marks and names are read off the front of a text in the same
way whether or not spaces follow at its end, and what is left carries the spaces on; only where all
of a text is read may they be passed over too. -/
namespace BmakeZig.Text

/-- The second text is the first one with `tail` at its end, which may be gone once nothing else is
left. -/
def Trails (tail text other : Text) : Prop :=
  other = text ++ tail ∨ (text = [] ∧ other = [])

variable {tail text other rest : Text} {c : Char}

theorem trails_append (tail text : Text) : Trails tail text (text ++ tail) :=
  .inl rfl

theorem Trails.cons (trails : Trails tail (c :: rest) other) : other = c :: (rest ++ tail) := by
  rcases trails with rfl | ⟨empty, _⟩
  · rfl
  · cases empty

theorem ne_of_isSpace {c d : Char} (space : isSpace c = true) (other : isSpace d = false) : c ≠ d := by
  rintro rfl
  rw [space] at other
  cases other

theorem isSpace_cases (space : isSpace c = true) : c = ' ' ∨ c = '\t' ∨ c = '\r' := by
  simpa [isSpace, or_assoc] using space

theorem isNameStart_eq_false (other : isNameChar c = false) : isNameStart c = false := by
  by_contra named
  have char := isNameChar_of_isNameStart (Bool.not_eq_false _ ▸ named)
  rw [other] at char
  cases char

theorem isNameStart_of_isSpace (space : isSpace c = true) : isNameStart c = false :=
  isNameStart_eq_false (isNameChar_of_isSpace space)

theorem cutAt?_eq_none {mark : Char} (absent : mark ∉ text) : cutAt? mark text = none := by
  induction text with
  | nil => rfl
  | cons c text ih =>
    rw [List.mem_cons, not_or] at absent
    simp [cutAt?, Ne.symm absent.1, ih absent.2]

section

variable (spaces : ∀ c ∈ tail, isSpace c = true)

include spaces

theorem Trails.space (trails : Trails tail [] (c :: rest)) : isSpace c = true := by
  rcases trails with same | ⟨_, empty⟩
  · exact spaces c (same ▸ List.mem_cons_self : c ∈ [] ++ tail)
  · cases empty

theorem skipSpaces_spaces : skipSpaces tail = [] :=
  List.dropWhile_eq_nil_iff.2 fun c member => spaces c member

theorem skipSpaces_append_spaces (text : Text) :
    skipSpaces (text ++ tail) = if skipSpaces text = [] then [] else skipSpaces text ++ tail := by
  have spent : tail.dropWhile isSpace = [] := skipSpaces_spaces spaces
  rw [skipSpaces, List.dropWhile_append, spent]
  by_cases empty : text.dropWhile isSpace = [] <;> simp [skipSpaces, empty]

theorem Trails.skipSpaces (trails : Trails tail text other) :
    Trails tail (skipSpaces text) (skipSpaces other) := by
  rcases trails with rfl | ⟨rfl, rfl⟩
  · rw [skipSpaces_append_spaces spaces]
    split
    · next empty => exact .inr ⟨empty, rfl⟩
    · exact .inl rfl
  · exact .inr ⟨rfl, rfl⟩

theorem trimStart_trails (text : Text) : Trails tail (trimStart text) (trimStart (text ++ tail)) := by
  have spent : tail.dropWhile isBlank = [] :=
    List.dropWhile_eq_nil_iff.2 fun c member => isBlank_of_isSpace (spaces c member)
  unfold trimStart
  rw [List.dropWhile_append, spent]
  by_cases empty : text.dropWhile isBlank = []
  · exact .inr ⟨empty, by simp [empty]⟩
  · exact .inl (by simp [empty])

theorem Trails.skip_nil (trails : Trails tail text other) (empty : Text.skipSpaces text = []) :
    Text.skipSpaces other = [] := by
  rcases trails with rfl | ⟨rfl, rfl⟩
  · rw [skipSpaces_append_spaces spaces, if_pos empty]
  · rfl

theorem Trails.skip_cons (trails : Trails tail text other)
    (next : Text.skipSpaces text = c :: rest) : Text.skipSpaces other = c :: (rest ++ tail) := by
  have skipped := trails.skipSpaces spaces
  rw [next] at skipped
  exact skipped.cons

theorem Trails.trimEnd (trails : Trails tail text other) : Text.trimEnd other = Text.trimEnd text := by
  rcases trails with rfl | ⟨rfl, rfl⟩
  · exact trimEnd_append_blanks (fun c member => isBlank_of_isSpace (spaces c member)) text
  · rfl

theorem takeWhile_append_spaces {p : Char → Bool} (other : ∀ c, isSpace c = true → p c = false)
    (text : Text) : (text ++ tail).takeWhile p = text.takeWhile p := by
  induction text with
  | nil =>
    cases tail with
    | nil => rfl
    | cons d tail => simp [other d (spaces d List.mem_cons_self)]
  | cons c text ih => simp only [List.cons_append, List.takeWhile_cons, ih]

theorem dropWhile_append_spaces {p : Char → Bool} (other : ∀ c, isSpace c = true → p c = false)
    (text : Text) : (text ++ tail).dropWhile p = text.dropWhile p ++ tail := by
  have whole : (text ++ tail).takeWhile p ++ (text ++ tail).dropWhile p =
      text.takeWhile p ++ (text.dropWhile p ++ tail) := by
    rw [List.takeWhile_append_dropWhile, ← List.append_assoc, List.takeWhile_append_dropWhile]
  rw [takeWhile_append_spaces spaces other] at whole
  exact List.append_cancel_left whole

theorem Trails.name? (trails : Trails tail text other) :
    Text.name? other = (Text.name? text).map fun found => (found.1, found.2 ++ tail) := by
  have stops : ∀ c, isSpace c = true → isNameChar c = false := fun _ => isNameChar_of_isSpace
  rcases trails with rfl | ⟨rfl, rfl⟩
  · cases text with
    | nil =>
      cases tail with
      | nil => rfl
      | cons d tail =>
        have start := isNameStart_of_isSpace (spaces d List.mem_cons_self)
        simp [Text.name?, start]
    | cons c text =>
      simp only [List.cons_append, Text.name?]
      split
      · rw [takeWhile_append_spaces spaces stops, dropWhile_append_spaces spaces stops]
        rfl
      · rfl
  · rfl

theorem after?_append_spaces {opening : Text} (solid : ∀ c ∈ opening, isSpace c = false)
    (text : Text) : after? opening (text ++ tail) = (after? opening text).map (· ++ tail) := by
  induction opening generalizing text with
  | nil => rfl
  | cons a opening ih =>
    obtain ⟨first, others⟩ := List.forall_mem_cons.1 solid
    cases text with
    | nil =>
      cases tail with
      | nil => rfl
      | cons d tail =>
        have other : a ≠ d := (ne_of_isSpace (spaces d List.mem_cons_self) first).symm
        simp [after?, other]
    | cons b text =>
      simp only [List.cons_append, after?]
      split
      · exact ih others text
      · rfl

theorem Trails.after? {opening : Text} (trails : Trails tail text other) (filled : opening ≠ [])
    (solid : ∀ c ∈ opening, isSpace c = false) :
    Text.after? opening other = (Text.after? opening text).map (· ++ tail) := by
  rcases trails with rfl | ⟨rfl, rfl⟩
  · exact after?_append_spaces spaces solid text
  · obtain ⟨a, opening, rfl⟩ := List.exists_cons_of_ne_nil filled
    rfl

theorem cutAt?_append_spaces {mark : Char} (solid : isSpace mark = false) (text : Text) :
    cutAt? mark (text ++ tail) = (cutAt? mark text).map fun cut => (cut.1, cut.2 ++ tail) := by
  induction text with
  | nil =>
    have absent : mark ∉ tail := fun member => ne_of_isSpace (spaces mark member) solid rfl
    rw [List.nil_append, cutAt?_eq_none absent]
    rfl
  | cons c text ih =>
    rw [List.cons_append, cutAt?, cutAt?, ih]
    split
    · rfl
    · cases cutAt? mark text <;> rfl

end

/-! What was read of a text. -/

theorem consumed_append_both (whole left tail : Text) :
    consumed (whole ++ tail) (left ++ tail) = consumed whole left := by
  simp only [consumed, List.length_append, Nat.add_sub_add_right]
  exact List.take_append_of_le_length (Nat.sub_le _ _)

theorem trimEnd_consumed_trails {whole whole' left left' : Text}
    (spaces : ∀ c ∈ tail, isSpace c = true) (outer : Trails tail whole whole')
    (inner : Trails tail left left') :
    trimEnd (consumed whole' left') = trimEnd (consumed whole left) := by
  rcases outer with rfl | ⟨rfl, rfl⟩
  · rcases inner with rfl | ⟨rfl, rfl⟩
    · rw [consumed_append_both]
    · have all (text : Text) : consumed text [] = text := by simp [consumed]
      rw [all, all]
      exact (trails_append tail whole).trimEnd spaces
  · simp [consumed]

end BmakeZig.Text
