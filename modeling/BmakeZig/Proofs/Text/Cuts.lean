import BmakeZig.Text.Basic
import Mathlib.Data.List.DropRight

/-! What the cuts of a text keep. Dropping from the end is the library's `rdropWhile`, so its facts
come from there; the rest says which part of a text a cut leaves, and that a text ending in a
character that stays is not shortened. -/
namespace BmakeZig.Text

variable {p : Char → Bool} {text rest : Text}

theorem dropEndWhile_eq_rdropWhile (p : Char → Bool) (text : Text) :
    dropEndWhile p text = text.rdropWhile p := by
  induction text with
  | nil => rfl
  | cons c text ih =>
    simp only [dropEndWhile, ih, List.rdropWhile, List.reverse_cons, List.dropWhile_append]
    cases cut : text.reverse.dropWhile p with
    | nil => by_cases first : p c <;> simp [first]
    | cons d kept =>
      split
      · next gone => simp at gone
      · simp

theorem dropEndWhile_isPrefix (p : Char → Bool) (text : Text) : dropEndWhile p text <+: text := by
  rw [dropEndWhile_eq_rdropWhile]
  exact List.rdropWhile_prefix p text

theorem trimEnd_isPrefix (text : Text) : trimEnd text <+: text :=
  dropEndWhile_isPrefix isBlank text

theorem mem_of_mem_trimEnd {c : Char} (found : c ∈ trimEnd text) : c ∈ text :=
  (trimEnd_isPrefix text).subset found

theorem skipSpaces_isSuffix (text : Text) : skipSpaces text <:+ text :=
  List.dropWhile_suffix isSpace

theorem mem_of_mem_skipSpaces {c : Char} (found : c ∈ skipSpaces text) : c ∈ text :=
  (skipSpaces_isSuffix text).subset found

theorem isBlank_of_isSpace {c : Char} (space : isSpace c = true) : isBlank c = true := by
  simp only [isSpace, Bool.or_eq_true, beq_iff_eq] at space
  rcases space with (rfl | rfl) | rfl <;> decide

/-- Name characters lie in two stretches of ASCII. -/
theorem toNat_of_isNameChar {c : Char} (named : isNameChar c = true) :
    (0x30 ≤ c.toNat ∧ c.toNat ≤ 0x39) ∨ (0x41 ≤ c.toNat ∧ c.toNat ≤ 0x7a) := by
  have letter : c.isAlpha = (decide ('A'.val ≤ c.val ∧ c.val ≤ 'Z'.val) ||
      (decide ('a'.val ≤ c.val) && decide (c.val ≤ 'z'.val))) := rfl
  simp only [isNameChar, Char.isAlphanum, letter, Char.isDigit, Bool.or_eq_true, Bool.and_eq_true,
    decide_eq_true_eq, beq_iff_eq, ge_iff_le] at named
  rcases named with ((⟨low, high⟩ | ⟨low, high⟩) | ⟨low, high⟩) | rfl
  · exact Or.inr ⟨low, Nat.le_trans high (by decide)⟩
  · exact Or.inr ⟨Nat.le_trans (by decide) low, high⟩
  · exact Or.inl ⟨low, high⟩
  · exact Or.inr (by decide)

theorem isBlank_of_isNameChar {c : Char} (named : isNameChar c = true) : isBlank c = false := by
  have ranged := toNat_of_isNameChar named
  simp only [isBlank, Bool.or_eq_false_iff, Bool.and_eq_false_iff, decide_eq_false_iff_not,
    beq_eq_false_iff_ne]
  omega

theorem isControl_of_isNameChar {c : Char} (named : isNameChar c = true) : isControl c = false := by
  have ranged := toNat_of_isNameChar named
  simp only [isControl, Bool.or_eq_false_iff, Bool.and_eq_false_iff, decide_eq_false_iff_not]
  omega

theorem isNameChar_of_isSpace {c : Char} (space : isSpace c = true) : isNameChar c = false := by
  by_contra named
  rw [Bool.not_eq_false] at named
  simpa [isBlank_of_isNameChar named] using isBlank_of_isSpace space

theorem isNameChar_of_isNameStart {c : Char} (start : isNameStart c = true) :
    isNameChar c = true := by
  simp only [isNameStart, isNameChar, Char.isAlphanum, Bool.or_eq_true] at start ⊢
  exact start.imp_left Or.inl

theorem isNameChar_of_mem {c : Char} (named : isName text = true) (member : c ∈ text) :
    isNameChar c = true := by
  cases text with
  | nil => simp [isName] at named
  | cons first others =>
    simp only [isName, Bool.and_eq_true, List.all_eq_true] at named
    rcases List.mem_cons.1 member with rfl | later
    · exact isNameChar_of_isNameStart named.1
    · exact named.2 c later

theorem consumed_append (text rest : Text) : consumed (text ++ rest) rest = text := by
  simp [consumed]

theorem skipSpaces_append {gap : Text} (spaces : ∀ c ∈ gap, isSpace c = true) (text : Text) :
    skipSpaces (gap ++ text) = skipSpaces text :=
  List.dropWhile_append_of_pos spaces

/-- What `skipSpaces` passes over are spaces. -/
theorem skipSpaces_lead (text : Text) :
    ∃ lead, (∀ c ∈ lead, isSpace c = true) ∧ text = lead ++ skipSpaces text :=
  ⟨text.takeWhile isSpace, fun _ member => List.mem_takeWhile_imp member,
    List.takeWhile_append_dropWhile.symm⟩

theorem trimEnd_append_blanks {gap : Text} (blanks : ∀ c ∈ gap, isBlank c = true) (text : Text) :
    trimEnd (text ++ gap) = trimEnd text := by
  simp only [trimEnd, dropEndWhile_eq_rdropWhile, List.rdropWhile, List.reverse_append]
  rw [List.dropWhile_append_of_pos (by simpa using blanks)]

/-- A text that ends in a character other than a blank is not cut by `trimEnd`. -/
theorem trimEnd_concat {c : Char} (solid : isBlank c = false) (text : Text) :
    trimEnd (text ++ [c]) = text ++ [c] := by
  rw [trimEnd, dropEndWhile_eq_rdropWhile, List.rdropWhile_concat_neg _ _ _ (by simp [solid])]

/-- A text that ends in a character other than a blank. -/
def Firm (text : Text) : Prop :=
  ∃ front c, text = front ++ [c] ∧ isBlank c = false

namespace Firm

variable {left right : Text}

theorem trimEnd_eq (firm : Firm text) : trimEnd text = text := by
  obtain ⟨front, c, rfl, solid⟩ := firm
  exact trimEnd_concat solid front

theorem ne_nil (firm : Firm text) : text ≠ [] := by
  obtain ⟨front, c, rfl, -⟩ := firm
  simp

theorem of_solid (filled : text ≠ []) (solid : ∀ c ∈ text, isBlank c = false) : Firm text :=
  ⟨text.dropLast, text.getLast filled, (List.dropLast_append_getLast filled).symm,
    solid _ (List.getLast_mem filled)⟩

theorem append_left (firm : Firm right) (left : Text) : Firm (left ++ right) := by
  obtain ⟨front, c, rfl, solid⟩ := firm
  exact ⟨left ++ front, c, by simp, solid⟩

end Firm

/-- What `trimEnd` cuts off is blank, and what it leaves is empty or ends in something else. -/
theorem trimEnd_split (text : Text) :
    ∃ blanks, text = trimEnd text ++ blanks ∧ (∀ c ∈ blanks, isBlank c = true) ∧
      (trimEnd text = [] ∨ Firm (trimEnd text)) := by
  induction text using List.reverseRecOn with
  | nil => exact ⟨[], rfl, by simp, .inl rfl⟩
  | append_singleton front c ih =>
    by_cases blank : isBlank c = true
    · obtain ⟨blanks, whole, all, kept⟩ := ih
      have cut : trimEnd (front ++ [c]) = trimEnd front := trimEnd_append_blanks (by simpa using blank) front
      rw [cut]
      refine ⟨blanks ++ [c], by rw [← List.append_assoc, ← whole], ?_, kept⟩
      simpa [or_imp, forall_and, blank] using all
    · rw [Bool.not_eq_true] at blank
      rw [trimEnd_concat blank]
      exact ⟨[], by simp, by simp, .inr ⟨front, c, rfl, blank⟩⟩

theorem firm_trimEnd {c : Char} (member : c ∈ text) (solid : isBlank c = false) :
    Firm (trimEnd text) := by
  obtain ⟨blanks, whole, all, kept⟩ := trimEnd_split text
  refine kept.resolve_left fun empty => ?_
  rw [whole, empty, List.nil_append] at member
  simp [all c member] at solid

theorem Firm.trimEnd_append {left : Text} (firm : Firm left) (right : Text) :
    trimEnd (left ++ right) = left ++ trimEnd right := by
  obtain ⟨blanks, whole, all, kept⟩ := trimEnd_split right
  have cut : trimEnd (left ++ right) = trimEnd (left ++ trimEnd right) := by
    conv_lhs => rw [whole, ← List.append_assoc]
    exact trimEnd_append_blanks all _
  rw [cut]
  rcases kept with empty | filled
  · rw [empty, List.append_nil, firm.trimEnd_eq]
  · exact (filled.append_left left).trimEnd_eq

/-- A run ends where the text goes on with something else. -/
theorem takeWhile_append_stop {run : Text} (taken : ∀ c ∈ run, p c = true)
    (stops : ∀ c ∈ rest.head?, p c = false) : (run ++ rest).takeWhile p = run := by
  rw [List.takeWhile_append_of_pos taken]
  cases rest with
  | nil => simp
  | cons d rest => simp [stops d rfl]

theorem dropWhile_append_stop {run : Text} (taken : ∀ c ∈ run, p c = true)
    (stops : ∀ c ∈ rest.head?, p c = false) : (run ++ rest).dropWhile p = rest := by
  rw [List.dropWhile_append_of_pos taken]
  cases rest with
  | nil => rfl
  | cons d rest => simp [stops d rfl]

/-- The longest name is the one that is written, unless what follows goes on with it. -/
theorem name?_append {name : Text} (named : isName name = true)
    (stops : ∀ c ∈ rest.head?, isNameChar c = false) : name? (name ++ rest) = some (name, rest) := by
  cases name with
  | nil => simp [isName] at named
  | cons c others =>
    simp only [isName, Bool.and_eq_true, List.all_eq_true] at named
    simp [name?, named.1, takeWhile_append_stop named.2 stops, dropWhile_append_stop named.2 stops]

theorem eq_append_of_after? {opening : Text} (found : after? opening text = some rest) :
    text = opening ++ rest := by
  induction opening generalizing text with
  | nil => simpa [after?] using found
  | cons a opening ih =>
    cases text with
    | nil => simp [after?] at found
    | cons b text =>
      simp only [after?] at found
      split at found
      · next same => rw [same, ih found, List.cons_append]
      · simp at found

theorem after?_append (opening text : Text) : after? opening (opening ++ text) = some text := by
  induction opening with
  | nil => rfl
  | cons c opening ih => simpa [after?] using ih

theorem not_mem_of_cutAt? {mark : Char} {before : Text} (found : cutAt? mark text = some (before, rest)) :
    mark ∉ before := by
  induction text generalizing before with
  | nil => simp [cutAt?] at found
  | cons c text ih =>
    simp only [cutAt?] at found
    split at found
    · simp only [Option.some.injEq, Prod.mk.injEq] at found
      simp [← found.1]
    · next other =>
      obtain ⟨⟨head, tail⟩, inner, same⟩ := Option.map_eq_some_iff.1 found
      obtain ⟨rfl, rfl⟩ := Prod.mk.inj same
      rw [List.mem_cons, not_or]
      exact ⟨Ne.symm other, ih inner⟩

/-- What `trim` cuts off at either end is blank. -/
theorem trim_split (text : Text) : ∃ lead trail, text = lead ++ (trim text ++ trail) ∧
    (∀ c ∈ lead, isBlank c = true) ∧ ∀ c ∈ trail, isBlank c = true := by
  obtain ⟨trail, whole, blank, -⟩ := trimEnd_split (trimStart text)
  refine ⟨text.takeWhile isBlank, trail, ?_, fun c member => List.mem_takeWhile_imp member, blank⟩
  rw [trim, ← whole, trimStart, List.takeWhile_append_dropWhile]

theorem cutAt?_append {mark : Char} {before : Text} (absent : mark ∉ before) (rest : Text) :
    cutAt? mark (before ++ mark :: rest) = some (before, rest) := by
  induction before with
  | nil => simp [cutAt?]
  | cons c before ih =>
    rw [List.mem_cons, not_or] at absent
    simp [cutAt?, Ne.symm absent.1, ih absent.2]

theorem cutAt?_of_some {mark : Char} {before : Text} (found : cutAt? mark text = some (before, rest))
    (more : Text) : cutAt? mark (text ++ more) = some (before, rest ++ more) := by
  obtain rfl := eq_append_of_cutAt? found
  rw [List.append_assoc]
  exact cutAt?_append (not_mem_of_cutAt? found) _

theorem cutAt?_of_none {mark : Char} (uncut : cutAt? mark text = none) (more : Text) :
    cutAt? mark (text ++ more) = (cutAt? mark more).map fun cut => (text ++ cut.1, cut.2) := by
  induction text with
  | nil => simp
  | cons c text ih =>
    simp only [cutAt?] at uncut
    split at uncut
    · cases uncut
    · next other =>
      rw [List.cons_append, cutAt?, if_neg other, ih (Option.map_eq_none_iff.1 uncut), Option.map_map]
      rfl

theorem not_mem_joinWith {c : Char} {separator : Text} {parts : List Text} (between : c ∉ separator)
    (each : ∀ part ∈ parts, c ∉ part) : c ∉ joinWith separator parts := by
  fun_induction joinWith separator parts with
  | case1 => simp
  | case2 part => exact each part List.mem_cons_self
  | case3 part parts _ ih =>
    have first := each part List.mem_cons_self
    have rest := ih fun other member => each other (List.mem_cons_of_mem _ member)
    simp [first, between, rest]

end BmakeZig.Text
