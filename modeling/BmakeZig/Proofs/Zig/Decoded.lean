import BmakeZig.Proofs.Zig.Reading

/-! What spellings look like, and that they tell texts and names apart. The body of a literal has an
escape for every character that could end the literal or its line, so no text can end its own literal,
and a text that looks like an escape is not taken for one. -/
namespace BmakeZig.Zig

variable {c : Char} {text rest : Text}

/-- Whether a text can stand between two quotes. A backslash goes with the character behind it; no quote
stands by itself, and no backslash is left over for the quote at the end. -/
def isBody : Text → Bool
  | [] => true
  | '"' :: _ => false
  | ['\\'] => false
  | '\\' :: _ :: rest => isBody rest
  | _ :: rest => isBody rest

theorem isBody_char (quote : c ≠ '"') (backslash : c ≠ '\\') (rest : Text) :
    isBody (c :: rest) = isBody rest := by
  rw [isBody] <;> simp_all

theorem isBody_plain (plain : ∀ c ∈ text, c ≠ '"' ∧ c ≠ '\\') (rest : Text) :
    isBody (text ++ rest) = isBody rest := by
  induction text with
  | nil => rfl
  | cons c text ih =>
    obtain ⟨⟨quote, backslash⟩, others⟩ := List.forall_mem_cons.1 plain
    rw [List.cons_append, isBody_char quote backslash, ih others]

/-- The digits of a control character are letters and digits. -/
theorem plain_toDigits {d : Char} (control : Text.isControl c = true)
    (member : d ∈ Nat.toDigits 16 c.toNat) : Text.isControl d = false ∧ d ≠ '"' ∧ d ≠ '\\' := by
  have named := isNameChar_of_mem_toDigits (toNat_of_isControl control) member
  refine ⟨Text.isControl_of_isNameChar named, ?_, ?_⟩
  · rintro rfl
    exact absurd named (by decide)
  · rintro rfl
    exact absurd named (by decide)

theorem isBody_escape_append (c : Char) (rest : Text) : isBody (escape c ++ rest) = isBody rest := by
  unfold escape
  split
  iterate 5 rfl
  next backslash quote _ _ _ =>
    split
    · next control =>
      have inside : ∀ d ∈ '\x7b' :: Nat.toDigits 16 c.toNat ++ ['\x7d'], d ≠ '"' ∧ d ≠ '\\' := by
        intro d member
        rw [List.cons_append, List.mem_cons, List.mem_append, List.mem_singleton] at member
        rcases member with rfl | digit | rfl
        · decide
        · exact (plain_toDigits control digit).2
        · decide
      exact isBody_plain inside rest
    · exact isBody_char quote backslash rest

theorem isControl_of_mem_escape (c : Char) : ∀ d ∈ escape c, Text.isControl d = false := by
  unfold escape
  split
  iterate 5 simp [Text.isControl]
  split
  · next control =>
    intro d member
    have opening : ∀ d ∈ "\\u\x7b".toList, Text.isControl d = false := by simp [Text.isControl]
    rw [List.mem_append, List.mem_append, List.mem_singleton] at member
    rcases member with (front | digit) | rfl
    · exact opening d front
    · exact (plain_toDigits control digit).1
    · decide
  · next plain => simpa using plain

theorem isBody_escaped (text : Text) : isBody (text.flatMap escape) = true := by
  induction text with
  | nil => rfl
  | cons c text ih => rw [List.flatMap_cons, isBody_escape_append, ih]

theorem isControl_of_mem_escaped (member : c ∈ text.flatMap escape) : Text.isControl c = false := by
  obtain ⟨source, _, inside⟩ := List.mem_flatMap.1 member
  exact isControl_of_mem_escape source c inside

/-- Literals decode to their texts and names to themselves, whatever stands behind them; so no two texts
have the same literal, and no two variables of a unit the same variable of the program. -/
theorem spellings_decode :
    (∀ text, ∃ body, literal text = '"' :: body ++ ['"'] ∧ isBody body = true ∧
      (∀ c ∈ body, Text.isControl c = false) ∧
      ∀ rest, literal? (literal text ++ rest) = some (text, rest)) ∧
    (∀ name, identifier name = name ∧ Text.isName name = true ∧ name ≠ ['_'] ∧ name ∉ keywords ∧
        name ∉ primitives ∧ isSizedType name = false ∧ ¬['c', '_'] <+: name ∨
      ∃ spelled, identifier name = '@' :: spelled ∧
        ∀ rest, literal? (spelled ++ rest) = some (name, rest)) ∧
    Function.Injective literal ∧ Function.Injective identifier ∧ Function.Injective variableNamed := by
  refine ⟨fun text => ?_, fun name => ?_, literal_injective, identifier_injective,
    variableNamed_injective⟩
  · exact ⟨text.flatMap escape, rfl, isBody_escaped text, fun _ => isControl_of_mem_escaped,
      literal?_literal text⟩
  · by_cases bare : isBare name = true
    · obtain ⟨named, single, keyword, primitive, foreign, sized⟩ :
          Text.isName name = true ∧ name ≠ ['_'] ∧ name ∉ keywords ∧ name ∉ primitives ∧
            ['c', '_'].isPrefixOf name = false ∧ isSizedType name = false := by
        simpa [isBare, isPrimitive, and_assoc] using bare
      refine .inl ⟨if_pos bare, named, single, keyword, primitive, sized, fun front => ?_⟩
      rw [List.isPrefixOf_iff_prefix.2 front] at foreign
      cases foreign
    · exact .inr ⟨literal name, if_neg bare, literal?_literal name⟩

end BmakeZig.Zig
