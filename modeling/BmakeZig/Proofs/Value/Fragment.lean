import BmakeZig.Proofs.Text.Cuts
import BmakeZig.Value.Fragment

/-! Values written down and cut up again. Writing fragments and cutting the text gives them back
merged, whatever text follows, as long as every reference is to a name; and cutting never finds
another kind of reference. -/
namespace BmakeZig.Fragment

variable {name rest : Text} {mode : Mode} {fragments : List Fragment}

/-- Every reference is to a name. -/
def Named (fragments : List Fragment) : Prop :=
  ∀ name mode, reference name mode ∈ fragments → Text.isName name = true

/-! Only literals are joined, so the references stay as they are. -/

@[simp] theorem reference_mem_consLiteral {c : Char} :
    reference name mode ∈ consLiteral c fragments ↔ reference name mode ∈ fragments := by
  unfold consLiteral
  split <;> simp

@[simp] theorem reference_mem_cons {first : Fragment} :
    reference name mode ∈ cons first fragments ↔
      reference name mode = first ∨ reference name mode ∈ fragments := by
  unfold cons
  split <;> simp

@[simp] theorem reference_mem_merge :
    reference name mode ∈ merge fragments ↔ reference name mode ∈ fragments := by
  induction fragments with
  | nil => rfl
  | cons first fragments ih =>
    rw [merge, List.foldr_cons, reference_mem_cons, List.mem_cons]
    exact or_congr_right ih

/-! Cutting, one mark at a time. -/

theorem split_char {c : Char} (plain : c ≠ '$') (rest : Text) :
    split (c :: rest) = consLiteral c (split rest) := by
  rw [split]
  · rintro after rfl
    simp at plain
  · rintro rfl
    simp at plain

theorem split_dollars (rest : Text) : split ('$' :: '$' :: rest) = consLiteral '$' (split rest) := by
  rw [split]

theorem closing_not_mem_name (mode : Mode) (named : Text.isName name = true) :
    mode.closing ∉ name := by
  intro member
  have inside := Text.isNameChar_of_mem named member
  cases mode <;> simp [Mode.closing, Text.isNameChar] at inside

theorem trim_name (named : Text.isName name = true) : Text.trim name = name := by
  have solid : ∀ c ∈ name, Text.isBlank c = false := fun c member =>
    Text.isBlank_of_isNameChar (Text.isNameChar_of_mem named member)
  cases name with
  | nil => rfl
  | cons c others =>
    have start : Text.trimStart (c :: others) = c :: others := by
      simp [Text.trimStart, solid c List.mem_cons_self]
    rw [Text.trim, start]
    exact (Text.Firm.of_solid (by simp) solid).trimEnd_eq

theorem reference?_written (named : Text.isName name = true) (mode : Mode) (rest : Text) :
    reference? (mode.opening :: name ++ mode.closing :: rest) = some ((name, mode), rest) := by
  rw [List.cons_append, reference?, Mode.ofOpening?_opening]
  simp only [Option.bind_eq_bind, Option.bind_some,
    Text.cutAt?_append (closing_not_mem_name mode named), trim_name named, named, if_true]

theorem isName_of_reference? {text : Text} (found : reference? text = some ((name, mode), rest)) :
    Text.isName name = true := by
  cases text with
  | nil => simp [reference?] at found
  | cons c inside =>
    simp only [reference?, Option.bind_eq_bind, Option.bind_eq_some_iff] at found
    obtain ⟨_, _, _, _, chosen⟩ := found
    split at chosen
    · next named =>
      simp only [Option.some.injEq, Prod.mk.injEq] at chosen
      rw [← chosen.1.1]
      exact named
    · simp at chosen

theorem split_spelled {after : Text} (found : reference? after = some ((name, mode), rest)) :
    split ('$' :: after) = reference name mode :: split rest := by
  rw [split]
  · split
    · next other same =>
      rw [found, Option.some.injEq, Prod.mk.injEq, Prod.mk.injEq] at same
      obtain ⟨⟨rfl, rfl⟩, rfl⟩ := same
      rfl
    · next same =>
      rw [found] at same
      simp at same
  · rintro after rfl
    simp [reference?, Mode.ofOpening?] at found

theorem split_unspelled {after : Text} (single : ∀ rest, after ≠ '$' :: rest)
    (unspelled : reference? after = none) : split ('$' :: after) = consLiteral '$' (split after) := by
  rw [split]
  · split
    · next same =>
      rw [unspelled] at same
      cases same
    · rfl
  · exact single

theorem split_reference (named : Text.isName name = true) (mode : Mode) (rest : Text) :
    split (written (reference name mode) ++ rest) = reference name mode :: split rest := by
  have text : written (reference name mode) ++ rest =
      '$' :: (mode.opening :: name ++ mode.closing :: rest) := by
    simp [written]
  rw [text, split_spelled (reference?_written named mode rest)]

/-! What cutting finds. -/

theorem named_split (text : Text) : Named (split text) := by
  intro name mode member
  fun_induction split text with
  | case1 => simp at member
  | case2 rest ih => exact ih (reference_mem_consLiteral.1 member)
  | case3 after _ found foundMode rest spelled _ ih =>
    rcases List.mem_cons.1 member with same | later
    · cases same
      exact isName_of_reference? spelled
    · exact ih later
  | case4 after _ _ ih => exact ih (reference_mem_consLiteral.1 member)
  | case5 c rest _ _ ih => exact ih (reference_mem_consLiteral.1 member)

theorem consLiteral_cons (c : Char) (text : Text) (fragments : List Fragment) :
    consLiteral c (cons (literal text) fragments) = cons (literal (c :: text)) fragments := by
  cases text with
  | nil => rcases fragments with _ | ⟨_ | _, _⟩ <;> rfl
  | cons d text => rcases fragments with _ | ⟨_ | _, _⟩ <;> rfl

theorem split_literal (text rest : Text) :
    split (written (literal text) ++ rest) = cons (literal text) (split rest) := by
  induction text with
  | nil => rfl
  | cons c text ih =>
    rw [← consLiteral_cons, ← ih]
    by_cases dollar : c = '$'
    · subst dollar
      exact split_dollars _
    · simp only [written, List.flatMap_cons, dollar, if_false, List.cons_append]
      exact split_char dollar _

theorem split_toText_append (named : Named fragments) (rest : Text) :
    split (toText fragments ++ rest) = fragments.foldr cons (split rest) := by
  induction fragments with
  | nil => rfl
  | cons first fragments ih =>
    have others := ih fun name mode member => named name mode (List.mem_cons_of_mem _ member)
    rw [toText, List.flatMap_cons, List.append_assoc, ← toText, List.foldr_cons, ← others]
    cases first with
    | literal text => exact split_literal text _
    | reference name mode => exact split_reference (named name mode List.mem_cons_self) mode _

/-- Fragments written down are cut up into the same fragments, merged. -/
theorem split_toText (named : Named fragments) : split (toText fragments) = merge fragments := by
  have whole := split_toText_append named []
  rwa [List.append_nil, split] at whole

theorem split_written_literal (text : Text) : split (written (literal text)) = merge [literal text] := by
  have whole := split_literal text []
  rwa [List.append_nil, split] at whole

theorem toText_append (left right : List Fragment) :
    toText (left ++ right) = toText left ++ toText right :=
  List.flatMap_append

/-- A text without a dollar sign is written as it is. -/
theorem written_plain {text : Text} (plain : '$' ∉ text) : written (literal text) = text := by
  induction text with
  | nil => rfl
  | cons c text ih =>
    rw [List.mem_cons, not_or] at plain
    have others := ih plain.2
    rw [written] at others
    rw [written, List.flatMap_cons, others, if_neg (Ne.symm plain.1), List.singleton_append]

end BmakeZig.Fragment
