import BmakeZig.Text.Basic

/-! Names in increasing order. The order of texts is strict and total, so a name put at its place leaves
the list increasing, and an increasing list holds no name twice. -/
namespace BmakeZig.Text

variable {first second third name : Text} {names : List Text}

theorem not_precedes_self (text : Text) : ¬text.precedes text = true := by
  induction text with
  | nil => simp [precedes]
  | cons c text ih => simpa [precedes] using ih

theorem precedes_trans (one : first.precedes second = true) (two : second.precedes third = true) :
    first.precedes third = true := by
  induction first generalizing second third with
  | nil =>
    cases second with
    | nil => cases one
    | cons b second =>
      cases third with
      | nil => cases two
      | cons c third => rfl
  | cons a first ih =>
    cases second with
    | nil => cases one
    | cons b second =>
      cases third with
      | nil => cases two
      | cons c third =>
        simp only [precedes, Bool.or_eq_true, Bool.and_eq_true, decide_eq_true_eq, beq_iff_eq]
          at one two ⊢
        rcases one with less | ⟨rfl, one⟩
        · rcases two with more | ⟨rfl, _⟩
          · exact .inl (Nat.lt_trans less more)
          · exact .inl less
        · rcases two with more | ⟨rfl, two⟩
          · exact .inl more
          · exact .inr ⟨rfl, ih one two⟩

theorem precedes_of_not (other : first ≠ second) (not : ¬first.precedes second = true) :
    second.precedes first = true := by
  induction first generalizing second with
  | nil =>
    cases second with
    | nil => exact absurd rfl other
    | cons b second => exact absurd rfl not
  | cons a first ih =>
    cases second with
    | nil => rfl
    | cons b second =>
      simp only [precedes, Bool.or_eq_true, Bool.and_eq_true, decide_eq_true_eq, beq_iff_eq, not_or,
        not_and] at not ⊢
      by_cases same : a = b
      · subst same
        exact .inr ⟨rfl, ih (fun equal => other (by rw [equal])) (not.2 rfl)⟩
      · left
        have apart : a.toNat ≠ b.toNat := fun equal => same (Char.toNat_inj.1 equal)
        omega

/-- A list of names in increasing order. -/
def Increasing (names : List Text) : Prop :=
  names.Pairwise fun one other => one.precedes other = true

theorem Increasing.insertSorted (increasing : Increasing names) (name : Text) :
    Increasing (insertSorted name names) := by
  induction names with
  | nil => simp [Increasing, Text.insertSorted]
  | cons first rest ih =>
    obtain ⟨before, later⟩ := List.pairwise_cons.1 increasing
    unfold Text.insertSorted
    split
    · exact increasing
    split
    · next front =>
      refine List.pairwise_cons.2 ⟨?_, increasing⟩
      exact List.forall_mem_cons.2 ⟨front, fun other member => precedes_trans front (before other member)⟩
    · next other behind =>
      refine List.pairwise_cons.2 ⟨?_, ih later⟩
      intro inner member
      rcases mem_insertSorted.1 member with rfl | old
      · exact precedes_of_not other behind
      · exact before inner old

theorem Increasing.nodup (increasing : Increasing names) : names.Nodup := by
  apply increasing.imp
  rintro one other before rfl
  exact not_precedes_self one before

end BmakeZig.Text
