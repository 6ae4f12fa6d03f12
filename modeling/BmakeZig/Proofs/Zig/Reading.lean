import BmakeZig.Proofs.Text.Cuts
import BmakeZig.Zig.Name

/-! String literals and names of Zig read back. The reader knows the language's escapes and its
reserved words; what the writer spells for a text or a variable reads as that text or variable,
whatever follows it. -/
namespace BmakeZig.Zig

def hexDigit? (c : Char) : Option Nat :=
  if c.isDigit then some (c.toNat - '0'.toNat)
  else if 'a' ≤ c ∧ c ≤ 'f' then some (c.toNat - 'a'.toNat + 10)
  else if 'A' ≤ c ∧ c ≤ 'F' then some (c.toNat - 'A'.toNat + 10)
  else none

/-- The number that digits to the base sixteen stand for. -/
def hex? (digits : Text) : Option Nat :=
  if digits.isEmpty then none
  else digits.foldlM (fun n c => (hexDigit? c).map (16 * n + ·)) 0

/-- The character that the escape behind a backslash stands for, with what follows it. -/
def escaped? : Text → Option (Char × Text)
  | [] => none
  | 'u' :: rest => do
    let inside ← Text.after? ['\x7b'] rest
    let (digits, rest) ← Text.cutAt? '\x7d' inside
    let n ← hex? digits
    if n.isValidChar then some (Char.ofNat n, rest) else none
  | c :: rest =>
    if c = 'n' then some ('\n', rest)
    else if c = 'r' then some ('\r', rest)
    else if c = 't' then some ('\t', rest)
    else if c = '\\' ∨ c = '"' then some (c, rest)
    else none

theorem length_of_escaped? {text rest : Text} {c : Char} (found : escaped? text = some (c, rest)) :
    rest.length < text.length := by
  unfold escaped? at found
  split at found
  · simp at found
  · next text =>
    simp only [Option.bind_eq_bind, Option.bind_eq_some_iff] at found
    obtain ⟨inside, behind, ⟨digits, after⟩, cut, n, _, valid⟩ := found
    split at valid
    · simp only [Option.some.injEq, Prod.mk.injEq] at valid
      have opened := Text.length_of_after? behind
      have closed := Text.length_of_cutAt? cut
      simp only [← valid.2, List.length_cons] at opened ⊢
      omega
    · simp at valid
  · next d text _ =>
    repeat' split at found
    all_goals simp_all

/-- The text up to the quote that ends a literal, escapes replaced, and what follows the quote. A
literal does not go over the end of its line. -/
def quoted? : Text → Option (Text × Text)
  | [] => none
  | '"' :: rest => some ([], rest)
  | '\\' :: after =>
    match found : escaped? after with
    | some (c, rest) =>
      have := length_of_escaped? found
      (quoted? rest).map fun text => (c :: text.1, text.2)
    | none => none
  | c :: rest =>
    if c = '\n' then none else (quoted? rest).map fun text => (c :: text.1, text.2)
termination_by text => text.length

/-- The literal the text starts with, and what follows it. -/
def literal? : Text → Option (Text × Text)
  | '"' :: rest => quoted? rest
  | _ => none

/-- The name the text starts with, plain or quoted, and what follows it. A word that means something
else is no plain name. -/
def identifier? : Text → Option (Text × Text)
  | '@' :: rest => literal? rest
  | text => do
    let (name, rest) ← Text.name? text
    if isBare name then some (name, rest) else none

/-! Literals. -/

theorem quoted?_escape {text rest : Text} {c : Char} (found : escaped? text = some (c, rest)) :
    quoted? ('\\' :: text) = (quoted? rest).map fun inner => (c :: inner.1, inner.2) := by
  rw [quoted?]
  split
  · next d after same =>
    rw [found, Option.some.injEq, Prod.mk.injEq] at same
    obtain ⟨rfl, rfl⟩ := same
    rfl
  · next same =>
    rw [found] at same
    simp at same

theorem quoted?_char {c : Char} (quote : c ≠ '"') (backslash : c ≠ '\\') (newline : c ≠ '\n')
    (rest : Text) :
    quoted? (c :: rest) = (quoted? rest).map fun inner => (c :: inner.1, inner.2) := by
  rw [quoted?]
  · rw [if_neg newline]
  · exact quote
  · exact backslash

theorem toNat_of_isControl {c : Char} (control : Text.isControl c = true) : c.toNat < 0xa0 := by
  simp only [Text.isControl, Bool.or_eq_true, Bool.and_eq_true, decide_eq_true_eq] at control
  omega

/-- The digits of a control character read as its code point. -/
theorem hex?_control : ∀ n < 0xa0, hex? (Nat.toDigits 16 n) = some n := by
  decide +kernel

theorem isNameChar_of_mem_toDigits {n : Nat} {c : Char} (small : n < 0xa0)
    (member : c ∈ Nat.toDigits 16 n) : Text.isNameChar c = true := by
  have digits : ∀ n < 0xa0, (Nat.toDigits 16 n).all Text.isNameChar = true := by decide +kernel
  exact List.all_eq_true.1 (digits n small) c member

theorem escaped?_control {c : Char} (control : Text.isControl c = true) (rest : Text) :
    escaped? ('u' :: '\x7b' :: Nat.toDigits 16 c.toNat ++ '\x7d' :: rest) = some (c, rest) := by
  have small := toNat_of_isControl control
  have number := hex?_control c.toNat small
  have unclosed : '\x7d' ∉ Nat.toDigits 16 c.toNat := fun member =>
    absurd (isNameChar_of_mem_toDigits small member) (by decide)
  have valid : c.toNat.isValidChar := c.valid
  have opened : Text.after? ['\x7b'] ('\x7b' :: Nat.toDigits 16 c.toNat ++ '\x7d' :: rest) =
      some (Nat.toDigits 16 c.toNat ++ '\x7d' :: rest) := rfl
  rw [List.cons_append, escaped?, opened]
  simp [Text.cutAt?_append unclosed, number, valid]

theorem quoted?_escape_append (c : Char) (rest : Text) :
    quoted? (escape c ++ rest) = (quoted? rest).map fun inner => (c :: inner.1, inner.2) := by
  unfold escape
  split
  · exact quoted?_escape rfl
  · exact quoted?_escape rfl
  · exact quoted?_escape rfl
  · exact quoted?_escape rfl
  · exact quoted?_escape rfl
  · next backslash quote newline _ _ =>
    split
    · next control =>
      have read := quoted?_escape (escaped?_control control rest)
      simpa using read
    · exact quoted?_char quote backslash newline rest

theorem quoted?_escaped (text rest : Text) :
    quoted? (text.flatMap escape ++ '"' :: rest) = some (text, rest) := by
  induction text with
  | nil => simp [quoted?]
  | cons c text ih => rw [List.flatMap_cons, List.append_assoc, quoted?_escape_append, ih]; rfl

theorem literal?_literal (text rest : Text) : literal? (literal text ++ rest) = some (text, rest) := by
  have read := quoted?_escaped text rest
  simpa [literal, literal?] using read

/-! Names. -/

theorem isName_of_isBare {name : Text} (bare : isBare name = true) : Text.isName name = true := by
  simp only [isBare, Bool.and_eq_true] at bare
  exact bare.1.1.1

theorem identifier?_identifier (name : Text) {rest : Text}
    (stops : ∀ c ∈ rest.head?, Text.isNameChar c = false) :
    identifier? (identifier name ++ rest) = some (name, rest) := by
  unfold identifier
  split
  · next bare =>
    have named := isName_of_isBare bare
    rw [identifier?, Text.name?_append named stops]
    · simp [bare]
    · intro after same
      cases name with
      | nil => simp [Text.isName] at named
      | cons c others =>
        have start := Text.isNameChar_of_mem named List.mem_cons_self
        rw [List.cons_append, List.cons.injEq] at same
        rw [same.1] at start
        exact absurd start (by decide)
  · exact literal?_literal name rest

/-! Different texts and names are spelled differently. -/

theorem literal_injective : Function.Injective literal := by
  intro one other same
  have read := literal?_literal one []
  rw [same, literal?_literal] at read
  cases read
  rfl

theorem identifier_injective : Function.Injective identifier := by
  intro one other same
  have first := @identifier?_identifier one [] (by simp)
  have second := @identifier?_identifier other [] (by simp)
  rw [same] at first
  cases first.symm.trans second
  rfl

theorem variableNamed_injective : Function.Injective variableNamed := by
  intro one other same
  exact identifier_injective (List.append_cancel_left same)

/-! No literal and no name leaves its line. -/

theorem newline_not_mem_escape (c : Char) : '\n' ∉ escape c := by
  unfold escape
  split
  iterate 5 decide
  next newline _ _ =>
    split
    · next control =>
      have digits : '\n' ∉ Nat.toDigits 16 c.toNat := fun member =>
        absurd (isNameChar_of_mem_toDigits (toNat_of_isControl control) member) (by decide)
      simpa using digits
    · simpa using Ne.symm newline

theorem newline_not_mem_literal (text : Text) : '\n' ∉ literal text := by
  simp [literal, newline_not_mem_escape]

theorem newline_not_mem_identifier (name : Text) : '\n' ∉ identifier name := by
  unfold identifier
  split
  · next bare =>
    intro member
    exact absurd (Text.isNameChar_of_mem (isName_of_isBare bare) member) (by decide)
  · simpa using newline_not_mem_literal name

end BmakeZig.Zig
