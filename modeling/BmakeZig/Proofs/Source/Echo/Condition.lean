import BmakeZig.Proofs.Source.Echo.Phrase

/-! Conditions, read on a line further down and with spaces at its end. A reader that takes another one
as its operand echoes as long as that one does, and the limits on operators and brackets count for
nothing as long as they exceed the text. -/
namespace BmakeZig.Source

variable {tail text other : Text} {size : Nat} {operand operand' : Reader} (line count : Nat)

/-- On texts shorter than `size` the second reader finds what the first one does. -/
def Echoes (count : Nat) (tail : Text) (size : Nat) (reader reader' : Reader) : Prop :=
  ∀ ⦃text other : Text⦄, text.length < size → Text.Trails tail text other →
    Echo (Node.shift count) tail text.length (reader text) (reader' other)

theorem length_behind_operator {operator rest behind : Text} (filled : operator ≠ [])
    (found : Text.after? operator (Text.skipSpaces rest) = some behind) :
    behind.length < rest.length := by
  have length := Text.length_of_after? found
  have skipped := Text.length_skipSpaces_le rest
  have positive := List.length_pos_iff.2 filled
  omega

section

variable (spaces : ∀ c ∈ tail, Text.isSpace c = true)

include spaces

theorem operands_echo (kind : Kind) {operator whole whole' rest rest' : Text} {limit limit' : Nat}
    {left : Node} (filled : operator ≠ []) (solid : ∀ c ∈ operator, Text.isSpace c = false)
    (echoes : Echoes count tail size operand operand') (outer : Text.Trails tail whole whole')
    (inner : Text.Trails tail rest rest') (fits : rest.length ≤ size)
    (enough : rest.length < limit) (enough' : rest.length < limit') :
    Echo (Node.shift count) tail rest.length
      (operands line kind operator operand whole limit left rest)
      (operands (line + count) kind operator operand' whole' limit' (left.shift count) rest') := by
  induction limit generalizing limit' left rest rest' with
  | zero => omega
  | succ limit ih =>
    obtain ⟨limit', rfl⟩ := Nat.exists_eq_succ_of_ne_zero (Nat.ne_zero_of_lt enough')
    have skipped := inner.skipSpaces spaces
    simp only [operands, skipped.after? spaces filled solid]
    -- Without another operator, what is left keeps its spaces or is nothing but spaces.
    cases found : Text.after? operator (Text.skipSpaces rest) with
    | none => exact .some skipped (Text.length_skipSpaces_le rest)
    | some behind =>
      have shorter := length_behind_operator filled found
      have read := echoes (by omega) (Text.trails_append tail behind)
      simp only [Option.map_some]
      rcases read.split with ⟨none, none'⟩ | ⟨right, after, after', some, some', trails, within⟩
      · simp only [none, none']
        exact .none
      · have span := Text.trimEnd_consumed_trails spaces outer trails
        have further := @ih after after' limit' (Node.branch kind line
          (Text.trimEnd (Text.consumed whole after)) [left, Node.token line operator, right]) trails
          (by omega) (by omega) (by omega)
        simp only [some, some', span]
        simp only [Node.shift_branch, List.map_cons, List.map_nil, Node.shift_token] at further
        exact further.mono (by omega)

theorem joined_echoes (kind : Kind) {operator : Text} (filled : operator ≠ [])
    (solid : ∀ c ∈ operator, Text.isSpace c = false)
    (echoes : Echoes count tail size operand operand') :
    Echoes count tail size (joined line kind operator operand)
      (joined (line + count) kind operator operand') := by
  intro text other fits trails
  have skipped := trails.skipSpaces spaces
  have shorter := Text.length_skipSpaces_le text
  simp only [joined]
  rcases (echoes (by omega) skipped).split with ⟨none, none'⟩ |
    ⟨left, after, after', some, some', inner, within⟩
  · simp only [none, none']
    exact .none
  · simp only [some, some']
    have longer : after.length ≤ after'.length := by
      rcases inner with rfl | ⟨rfl, rfl⟩ <;> simp
    exact (operands_echo line count spaces kind filled solid echoes skipped inner (by omega)
      (by omega) (by omega)).mono (by omega)

theorem comparison_echoes (echoes : Echoes count tail size operand operand') :
    Echoes count tail size (comparison line operand) (comparison (line + count) operand') := by
  intro text other fits trails
  have skipped := trails.skipSpaces spaces
  have shorter := Text.length_skipSpaces_le text
  simp only [comparison]
  rcases (echoes (by omega) skipped).split with ⟨none, none'⟩ |
    ⟨left, after, after', some, some', inner, within⟩
  · simp only [none, none']
    exact .none
  · have behind := inner.skipSpaces spaces
    simp only [some, some', behind.after? spaces (List.cons_ne_nil '=' ['=']) (by simp [Text.isSpace])]
    cases found : Text.after? ['=', '='] (Text.skipSpaces after) with
    | none => exact .some behind (Nat.le_trans (Text.length_skipSpaces_le after) (by omega))
    | some rest =>
      have less := length_behind_operator (by simp) found
      simp only [Option.map_some]
      rcases (echoes (by omega) (Text.trails_append tail rest)).split with ⟨none, none'⟩ |
        ⟨right, last, last', some, some', final, room⟩
      · simp only [none, none']
        exact .none
      · simp only [some, some', Option.map_some, Text.trimEnd_consumed_trails spaces skipped final]
        exact .found (by simp) final (by omega)

theorem negation_echoes (echoes : Echoes count tail size operand operand') :
    Echoes count tail size (negation line operand) (negation (line + count) operand') := by
  intro text other fits trails
  fun_induction negation line operand text generalizing other with
  | case1 text behind next shorter ih =>
    rw [negation_mark (trails.skip_cons spaces next)]
    have whole := Text.trails_append tail ('!' :: behind)
    rcases (ih (by omega) (Text.trails_append tail behind)).split with ⟨none, none'⟩ |
      ⟨inner, left, left', some, some', inside, within⟩
    · rw [none, none']
      exact .none
    · have span := Text.trimEnd_consumed_trails spaces whole inside
      rw [List.cons_append] at span
      simp only [some, some', Option.map_some, span]
      exact .found (by simp) inside (by omega)
  | case2 text plain =>
    have skipped := trails.skipSpaces spaces
    have shorter := Text.length_skipSpaces_le text
    have unmarked : (Text.skipSpaces other).head? ≠ some '!' := fun first => by
      obtain ⟨behind, next⟩ :=
        List.head?_eq_some_iff.1 ((head?_trails spaces skipped (by decide)).1 first)
      exact plain behind next
    rw [negation_skip rfl unmarked]
    exact (echoes (by omega) skipped).mono (by omega)

/-- A mark is next on both lines or on neither. -/
theorem mark_split (mark : Char) (solid : Text.isSpace mark = false) {left left' : Text}
    (trails : Text.Trails tail left left') :
    (∃ rest, Text.skipSpaces left = mark :: rest ∧ Text.skipSpaces left' = mark :: (rest ++ tail)) ∨
      (∀ rest, Text.skipSpaces left = mark :: rest → False) ∧
        ∀ rest, Text.skipSpaces left' = mark :: rest → False :=
  head_split spaces mark solid (trails.skipSpaces spaces)

/-- The test for being defined, up to the bracket that closes it. -/
theorem nameOrDefined_echoes :
    Echoes count tail size (nameOrDefined line) (nameOrDefined (line + count)) := by
  intro text other _ trails
  simp only [nameOrDefined, trails.name? spaces]
  cases named : Text.name? text with
  | none => exact .none
  | some found =>
    obtain ⟨name, after⟩ := found
    have shorter := Text.length_of_name? named
    have behind := Text.trails_append tail after
    obtain rfl : other = text ++ tail :=
      trails.resolve_right fun empty => by simp [empty.1, Text.name?] at named
    simp only [Option.map_some]
    split
    · rcases mark_split spaces '(' (by decide) behind with ⟨inside, next, next'⟩ | ⟨plain, plain'⟩
      · have inner := (Text.trails_append tail inside).skipSpaces spaces
        simp only [next, next', inner.name? spaces]
        cases aimed : Text.name? (Text.skipSpaces inside) with
        | none => exact .none
        | some target =>
          simp only [Option.map_some]
          rcases mark_split spaces ')' (by decide) (Text.trails_append tail target.2) with
            ⟨rest, closed, closed'⟩ | ⟨stillOpen, stillOpen'⟩
          · simp only [closed, closed', Text.consumed_append_both]
            refine .found (by simp) (Text.trails_append tail rest) ?_
            have within := length_behind_spaces closed
            have aim := Text.length_of_name? aimed
            have skipped := Text.length_skipSpaces_le inside
            have opened := length_behind_spaces next
            omega
          · simp only []
            exact .none
      · simp only []
        exact .some (behind.skipSpaces spaces)
          (Nat.le_trans (Text.length_skipSpaces_le after) (Nat.le_of_lt shorter))
    · exact .some behind (by omega)

/-- A primary is told by its first character, which is no space. -/
theorem primary_echoes {inner inner' : Reader} (echoes : Echoes count tail size inner inner') :
    Echoes count tail (size + 1) (primary line inner) (primary (line + count) inner') := by
  intro text other fits trails
  have shorter := Text.length_skipSpaces_le text
  unfold primary
  rcases mark_split spaces '(' (by decide) trails with ⟨inside, next, next'⟩ | ⟨round, round'⟩
  · have opened := length_behind_spaces next
    simp only [next, next']
    rcases (echoes (by omega) (Text.trails_append tail inside)).split with ⟨none, none'⟩ |
      ⟨node, left, left', some, some', behind, within⟩
    · simp only [none, none']
      exact .none
    · simp only [some, some']
      rcases mark_split spaces ')' (by decide) behind with ⟨rest, closed, closed'⟩ |
        ⟨stillOpen, stillOpen'⟩
      · have last := length_behind_spaces closed
        simp only [closed, closed']
        exact .some (Text.trails_append tail rest) (by omega)
      · simp only []
        exact .none
  rcases mark_split spaces '"' (by decide) trails with ⟨inside, next, next'⟩ | ⟨quote, quote'⟩
  · have opened := length_behind_spaces next
    simp only [next, next', Text.cutAt?_append_spaces spaces (by decide : Text.isSpace '"' = false)]
    cases cut : Text.cutAt? '"' inside with
    | none => exact .none
    | some found =>
      have behind := Text.length_of_cutAt? cut
      exact .some (Text.trails_append tail found.2) (by omega)
  rcases mark_split spaces '$' (by decide) trails with ⟨inside, next, next'⟩ | ⟨dollar, dollar'⟩
  · have opened := length_behind_spaces next
    simp only [next, next']
    exact (expansion_echo spaces (Text.trails_append tail ('$' :: inside)) line count).mono
      (by rw [List.length_cons]; omega)
  · simp only []
    have room : (Text.skipSpaces text).length < size + 1 := by omega
    exact (nameOrDefined_echoes line count spaces room (trails.skipSpaces spaces)).mono shorter

/-- Brackets, by induction on how deep they may be on either side. -/
theorem conditionWithin_echoes {depth depth' : Nat} (enough : size ≤ depth) (enough' : size ≤ depth') :
    Echoes count tail size (conditionWithin line depth) (conditionWithin (line + count) depth') := by
  induction depth generalizing size depth' with
  | zero =>
    intro text other fits trails
    omega
  | succ depth ih =>
    intro text other fits trails
    obtain ⟨depth', rfl⟩ := Nat.exists_eq_succ_of_ne_zero (by omega : depth' ≠ 0)
    -- A bracket takes a character, so what is inside is shorter by one.
    obtain ⟨size, rfl⟩ := Nat.exists_eq_succ_of_ne_zero (Nat.ne_zero_of_lt fits)
    have inner := @ih size depth' (by omega) (by omega)
    have primary := negation_echoes line count spaces (primary_echoes line count spaces inner)
    have conjunction := joined_echoes line count spaces .and (List.cons_ne_nil '&' ['&'])
      (by simp [Text.isSpace]) (comparison_echoes line count spaces primary)
    exact joined_echoes line count spaces .or (List.cons_ne_nil '|' ['|']) (by simp [Text.isSpace])
      conjunction fits trails

theorem condition_echo (trails : Text.Trails tail text other) :
    Echo (Node.shift count) tail text.length (condition line text)
      (condition (line + count) other) := by
  have longer : text.length ≤ other.length := by
    rcases trails with rfl | ⟨rfl, rfl⟩ <;> simp
  exact conditionWithin_echoes line count spaces (Nat.le_refl _) (by omega)
    (Nat.lt_succ_self text.length) trails

end

end BmakeZig.Source
