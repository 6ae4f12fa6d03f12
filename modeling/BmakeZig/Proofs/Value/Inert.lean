import BmakeZig.Proofs.Environment.Expand
import BmakeZig.Proofs.Value.Fragment

/-! Texts that stand in written form for themselves. A dollar sign that is followed by another one, by a
reference, or by the start of one that a later text could end, is read as something else; a text without
such a dollar sign is inert, and the cut finds nothing but literal text in it, whatever is written behind
it. -/
namespace BmakeZig.Fragment

/-- Whether a dollar sign in front of the text is read as itself, whatever follows the text. -/
def standsAlone : Text → Bool
  | [] => false
  | c :: inside =>
    c != '$' &&
      match Mode.ofOpening? c with
      | none => true
      | some mode =>
        match Text.cutAt? mode.closing inside with
        | some (content, _) => !Text.isName (Text.trim content)
        -- A name that has begun, or has yet to begin, may still be closed.
        | none => !((Text.trim inside).isEmpty || Text.isName (Text.trim inside))

def isInert : Text → Bool
  | [] => true
  | c :: rest => (c != '$' || standsAlone rest) && isInert rest

/-! What may be read behind an inert text. -/

theorem isName_of_append {name more : Text} (filled : name ≠ [])
    (named : Text.isName (name ++ more) = true) : Text.isName name = true := by
  obtain ⟨c, others, rfl⟩ := List.exists_cons_of_ne_nil filled
  simp only [List.cons_append, Text.isName, List.all_append, Bool.and_eq_true] at named ⊢
  exact ⟨named.1, named.2.1⟩

/-- Where a longer text is a name between blanks, so is the start of it, as far as it goes. -/
theorem trim_of_isName_trim {text more : Text} (named : Text.isName (Text.trim (text ++ more)) = true) :
    Text.trim text = [] ∨ Text.isName (Text.trim text) = true := by
  unfold Text.trim at *
  cases start : Text.trimStart text with
  | nil => exact .inl rfl
  | cons d others =>
    have solid : Text.isBlank d = false := by
      have stopped := List.head?_dropWhile_not Text.isBlank text
      rw [show text.dropWhile Text.isBlank = d :: others from start] at stopped
      simpa using stopped
    have longer : Text.trimStart (text ++ more) = d :: others ++ more := by
      rw [← start, Text.trimStart, Text.trimStart, List.dropWhile_append]
      rw [show text.dropWhile Text.isBlank = d :: others from start]
      rfl
    have firm : Text.Firm (Text.trimEnd (d :: others)) := Text.firm_trimEnd List.mem_cons_self solid
    obtain ⟨blanks, whole, -, -⟩ := Text.trimEnd_split (d :: others)
    rw [longer, whole, List.append_assoc, firm.trimEnd_append] at named
    exact .inr (isName_of_append firm.ne_nil named)

/-- A name behind blanks alone. -/
theorem trim_append_name {text name : Text} (blank : Text.trim text = [])
    (named : Text.isName name = true) : Text.trim (text ++ name) = name := by
  obtain ⟨lead, trail, whole, before, behind⟩ := Text.trim_split text
  rw [blank, List.nil_append] at whole
  have blanks : ∀ c ∈ text, Text.isBlank c = true := by
    intro c member
    rw [whole] at member
    exact (List.mem_append.1 member).elim (before c) (behind c)
  have front : Text.trimStart (text ++ name) = Text.trimStart name :=
    List.dropWhile_append_of_pos blanks
  rw [Text.trim, front, ← Text.trim, trim_name named]

theorem reference?_eq_none {rest : Text} (alone : standsAlone rest = true) (more : Text) :
    reference? (rest ++ more) = none := by
  cases rest with
  | nil => cases alone
  | cons c inside =>
    rw [List.cons_append, reference?]
    cases opened : Mode.ofOpening? c with
    | none => rfl
    | some mode =>
      simp only [standsAlone, opened, Bool.and_eq_true] at alone
      obtain ⟨-, alone⟩ := alone
      simp only [Option.bind_eq_bind, Option.bind_some]
      cases closed : Text.cutAt? mode.closing inside with
      | some inner =>
        obtain ⟨content, behind⟩ := inner
        simp only [closed, Bool.not_eq_true'] at alone
        simp [Text.cutAt?_of_some closed, alone]
      | none =>
        simp only [closed, Bool.not_eq_true', Bool.or_eq_false_iff, List.isEmpty_eq_false_iff] at alone
        rw [Text.cutAt?_of_none closed]
        cases Text.cutAt? mode.closing more with
        | none => rfl
        | some cut =>
          -- The bracket closes behind the text, so what stands inside goes on with all of it.
          have other : Text.isName (Text.trim (inside ++ cut.1)) = false := by
            by_contra named
            rw [Bool.not_eq_false] at named
            rcases trim_of_isName_trim named with empty | begun
            · exact alone.1 empty
            · simp [begun] at alone
          simp [other]

/-- Of an inert text with a literal written behind it nothing is read but literal text. -/
theorem split_inert {text : Text} (inert : isInert text = true) (more : Text) :
    split (text ++ written (literal more)) = cons (literal (text ++ more)) [] := by
  induction text with
  | nil => simpa [split] using split_literal more []
  | cons c rest ih =>
    simp only [isInert, Bool.and_eq_true, Bool.or_eq_true, bne_iff_ne, ne_eq] at inert
    obtain ⟨alone, others⟩ := inert
    rw [List.cons_append, List.cons_append, ← consLiteral_cons, ← ih others]
    by_cases dollar : c = '$'
    · subst dollar
      have alone := alone.resolve_left (by simp)
      refine split_unspelled (fun behind same => ?_) (reference?_eq_none alone _)
      cases rest with
      | nil => cases alone
      | cons d rest =>
        obtain rfl := (List.cons.inj same).1
        simp [standsAlone] at alone
    · exact split_char dollar _

/-! Texts that are not inert. -/

/-- The literal text that is read, references left out. -/
def literals (text : Text) : Text :=
  readAll (fun _ => []) (split text)

theorem literals_consLiteral (c : Char) (fragments : List Fragment) :
    readAll (fun _ => []) (consLiteral c fragments) = c :: readAll (fun _ => []) fragments := by
  rcases fragments with _ | ⟨_ | _, _⟩ <;> rfl

theorem literals_reference (name : Text) (mode : Mode) (fragments : List Fragment) :
    readAll (fun _ => []) (reference name mode :: fragments) = readAll (fun _ => []) fragments := by
  cases mode <;> rfl

theorem length_literals_le (text : Text) : (literals text).length ≤ text.length := by
  unfold literals
  fun_induction split text with
  | case1 => simp [readAll]
  | case2 rest ih =>
    rw [literals_consLiteral]
    simp only [List.length_cons]
    omega
  | case3 after _ name mode rest spelled shorter ih =>
    rw [literals_reference]
    simp only [List.length_cons]
    omega
  | case4 after _ _ ih | case5 _ after _ _ ih =>
    rw [literals_consLiteral]
    simpa using ih

/-- Where the literal text is the text itself, every dollar sign in it stands for itself. -/
theorem whole_tail {c : Char} {rest : Text} (whole : literals (c :: rest) = c :: rest) :
    literals rest = rest ∧ (c = '$' → rest.head? ≠ some '$' ∧ reference? rest = none) := by
  by_cases dollar : c = '$'
  · subst dollar
    have single : ∀ behind, rest ≠ '$' :: behind := by
      rintro behind rfl
      have shorter := length_literals_le behind
      rw [literals, split_dollars, literals_consLiteral, ← literals] at whole
      have same := congrArg List.length whole
      simp only [List.length_cons] at same
      omega
    cases spelled : reference? rest with
    | some found =>
      obtain ⟨⟨name, mode⟩, behind⟩ := found
      have shorter := length_of_reference? spelled
      have least := length_literals_le behind
      rw [literals, split_spelled spelled, literals_reference, ← literals] at whole
      have same := congrArg List.length whole
      simp only [List.length_cons] at same
      omega
    | none =>
      rw [literals, split_unspelled single spelled, literals_consLiteral, ← literals] at whole
      refine ⟨(List.cons.inj whole).2, fun _ => ⟨fun first => ?_, rfl⟩⟩
      obtain ⟨behind, same⟩ := List.head?_eq_some_iff.1 first
      exact single behind same
  · rw [literals, split_char dollar, literals_consLiteral, ← literals] at whole
    exact ⟨(List.cons.inj whole).2, fun same => absurd same dollar⟩

theorem standsAlone_of_unread {rest : Text}
    (unread : ∀ more, '$' ∉ more → more ≠ [] →
      (rest ++ more).head? ≠ some '$' ∧ reference? (rest ++ more) = none) :
    standsAlone rest = true := by
  cases rest with
  | nil =>
    have none := (unread "(A)".toList (by decide) (by decide)).2
    have spelled := reference?_written (show Text.isName ['A'] = true by decide) .recursive []
    exact absurd (none.symm.trans spelled) (by simp)
  | cons c inside =>
    have other := (unread ['A'] (by decide) (by decide)).1
    simp only [List.cons_append, List.head?_cons, ne_eq, Option.some.injEq] at other
    simp only [standsAlone, Bool.and_eq_true, bne_iff_ne, ne_eq, other, not_false_eq_true, true_and]
    cases opened : Mode.ofOpening? c with
    | none => rfl
    | some mode =>
      have closing : '$' ∉ [mode.closing] := by cases mode <;> decide
      have reads (more content : Text) (dollars : '$' ∉ more) (filled : more ≠ [])
          (cut : ∃ behind, Text.cutAt? mode.closing (inside ++ more) = some (content, behind)) :
          Text.isName (Text.trim content) = false := by
        obtain ⟨behind, cut⟩ := cut
        have none := (unread more dollars filled).2
        rw [List.cons_append, reference?, opened] at none
        simpa [cut] using none
      cases closed : Text.cutAt? mode.closing inside with
      | some inner =>
        obtain ⟨content, behind⟩ := inner
        have other := reads ['A'] content (by decide) (by decide)
          ⟨_, Text.cutAt?_of_some closed ['A']⟩
        simp [closed, other]
      | none =>
        have ended := reads [mode.closing] inside closing (by simp)
          ⟨[], by simp [Text.cutAt?_of_none closed, Text.cutAt?]⟩
        have begun := reads ['A', mode.closing] (inside ++ ['A']) (by simpa using closing) (by simp)
          ⟨[], by rw [Text.cutAt?_of_none closed]; cases mode <;> rfl⟩
        have filled : Text.trim inside ≠ [] := fun empty => by
          rw [trim_append_name empty (by decide)] at begun
          exact absurd begun (by decide)
        simp [closed, ended, filled]

theorem isInert_of_whole {text : Text}
    (whole : ∀ more, '$' ∉ more → more ≠ [] → literals (text ++ more) = text ++ more) :
    isInert text = true := by
  induction text with
  | nil => rfl
  | cons c rest ih =>
    have tails := fun more dollars filled => whole_tail (whole more dollars filled)
    have others := ih fun more dollars filled => (tails more dollars filled).1
    simp only [isInert, others, Bool.and_true, Bool.or_eq_true, bne_iff_ne, ne_eq]
    by_cases dollar : c = '$'
    · exact .inr (standsAlone_of_unread fun more dollars filled => (tails more dollars filled).2 dollar)
    · exact .inl dollar

end BmakeZig.Fragment
