import BmakeZig.Proofs.Zig.Layout
import BmakeZig.Proofs.Zig.Reading

/-! The variables that an emitted text reads or writes. A reader goes through the text and takes down
each name behind `vars.`, passing over string literals. Neither a literal nor a name goes over the end
of a line, so the reader goes line by line and indentation changes nothing. -/
namespace BmakeZig.Zig

theorem length_of_quoted? {text read rest : Text} (found : quoted? text = some (read, rest)) :
    rest.length < text.length := by
  fun_induction quoted? text generalizing read with
  | case1 => cases found
  | case2 rest => cases found; simp
  | case3 after c rest spelled _ ih =>
    obtain ⟨inner, own, same⟩ := Option.map_eq_some_iff.1 found
    cases same
    have shorter := ih own
    have escape := length_of_escaped? spelled
    simp only [List.length_cons]
    omega
  | case4 => cases found
  | case5 => cases found
  | case6 c rest _ _ _ ih =>
    obtain ⟨inner, own, same⟩ := Option.map_eq_some_iff.1 found
    cases same
    have shorter := ih own
    simp only [List.length_cons]
    omega

theorem length_of_literal? {text read rest : Text} (found : literal? text = some (read, rest)) :
    rest.length < text.length := by
  unfold literal? at found
  split at found
  · have shorter := length_of_quoted? found
    simp only [List.length_cons]
    omega
  · cases found

theorem length_of_identifier? {text name rest : Text} (found : identifier? text = some (name, rest)) :
    rest.length < text.length := by
  unfold identifier? at found
  split at found
  · have shorter := length_of_literal? found
    simp only [List.length_cons]
    omega
  · simp only [Option.bind_eq_bind, Option.bind_eq_some_iff] at found
    obtain ⟨⟨word, after⟩, named, bare⟩ := found
    split at bare
    · cases bare
      exact Text.length_of_name? named
    · cases bare

/-- The variable that an access at the start of the text is to, with what follows it. -/
def access? (text : Text) : Option (Text × Text) :=
  (Text.after? "vars.".toList text).bind identifier?

theorem length_of_access? {text name rest : Text} (found : access? text = some (name, rest)) :
    rest.length < text.length := by
  obtain ⟨target, behind, named⟩ := Option.bind_eq_some_iff.1 found
  have opened := Text.length_of_after? behind
  have shorter := length_of_identifier? named
  omega

variable {text rest after name : Text} {c : Char}

/-- What stands behind the comment at the start of the text. -/
def remark? (text : Text) : Option Text :=
  (Text.after? ['/', '/'] text).map fun inside => inside.dropWhile (· != '\n')

theorem length_of_remark? (found : remark? text = some rest) : rest.length < text.length := by
  obtain ⟨inside, behind, rfl⟩ := Option.map_eq_some_iff.1 found
  have opened := Text.length_of_after? behind
  have shorter := Text.length_dropWhile_le (· != '\n') inside
  simp only [List.length_cons] at opened
  omega

/-- The piece that a reader takes from the start of the text, with what follows it: a comment or a
literal, in which it looks for nothing, or an access. -/
def piece? (text : Text) : Option (List Text × Text) :=
  match remark? text with
  | some after => some ([], after)
  | none =>
    match literal? text with
    | some (_, after) => some ([], after)
    | none => (access? text).map fun access => ([access.1], access.2)

theorem length_of_piece? {names : List Text} (found : piece? text = some (names, rest)) :
    rest.length < text.length := by
  unfold piece? at found
  split at found
  · next remarked =>
    cases found
    exact length_of_remark? remarked
  split at found
  · next quoted =>
    cases found
    exact length_of_literal? quoted
  · obtain ⟨access, accessed, same⟩ := Option.map_eq_some_iff.1 found
    cases same
    exact length_of_access? accessed

/-- The variables that the text accesses, in order. -/
def accesses : Text → List Text
  | [] => []
  | c :: rest =>
    match found : piece? (c :: rest) with
    | some (names, after) =>
      have := length_of_piece? found
      names ++ accesses after
    | none => accesses rest
termination_by text => text.length
decreasing_by
  · assumption
  · exact Nat.lt_succ_self rest.length

theorem accesses_piece {names : List Text} (found : piece? text = some (names, after)) :
    accesses text = names ++ accesses after := by
  cases text with
  | nil => cases found
  | cons c rest =>
    rw [accesses]
    split
    · next same =>
      cases found.symm.trans same
      rfl
    · next same => cases found.symm.trans same

theorem accesses_skip (other : piece? (c :: rest) = none) :
    accesses (c :: rest) = accesses rest := by
  rw [accesses]
  split
  · next same => cases other.symm.trans same
  · rfl

/-! Single pieces. -/

/-- Fixed text with no quote and no slash in it, no access and no start of one that could go on behind
it. -/
def isPlain : Text → Bool
  | [] => true
  | c :: rest =>
    c != '"' && c != '/' && !(c :: rest).isPrefixOf "vars.".toList &&
      !"vars.".toList.isPrefixOf (c :: rest) && isPlain rest

theorem after?_eq_none {opening : Text} (opened : opening.isPrefixOf text = false)
    (going : text.isPrefixOf opening = false) (rest : Text) :
    Text.after? opening (text ++ rest) = none := by
  induction opening generalizing text with
  | nil => cases opened
  | cons a opening ih =>
    cases text with
    | nil => cases going
    | cons c text =>
      rw [List.cons_append, Text.after?]
      split
      · next same =>
        subst same
        exact ih (by simpa [List.isPrefixOf] using opened) (by simpa [List.isPrefixOf] using going)
      · rfl

theorem accesses_plain (plain : isPlain text = true) (rest : Text) :
    accesses (text ++ rest) = accesses rest := by
  induction text with
  | nil => rfl
  | cons c text ih =>
    simp only [isPlain, Bool.and_eq_true, bne_iff_ne, Bool.not_eq_true'] at plain
    obtain ⟨⟨⟨⟨quote, slash⟩, going⟩, opened⟩, later⟩ := plain
    have access : access? (c :: text ++ rest) = none := by
      rw [access?, after?_eq_none opened going]
      rfl
    rw [List.cons_append] at access ⊢
    rw [accesses_skip, ih later]
    simp [piece?, remark?, Text.after?, literal?, quote, Ne.symm slash, access]

theorem accesses_literal (text rest : Text) : accesses (literal text ++ rest) = accesses rest := by
  have code : remark? (literal text ++ rest) = none := rfl
  have piece : piece? (literal text ++ rest) = some ([], rest) := by
    simp [piece?, code, literal?_literal]
  exact accesses_piece piece

theorem accesses_variable (name : Text) (stops : ∀ c ∈ rest.head?, Text.isNameChar c = false) :
    accesses (variableNamed name ++ rest) = name :: accesses rest := by
  have opened : Text.after? "vars.".toList (variableNamed name ++ rest) =
      some (identifier name ++ rest) := by
    unfold variableNamed
    rw [List.append_assoc]
    exact Text.after?_append _ _
  have access : access? (variableNamed name ++ rest) = some (name, rest) := by
    unfold access?
    rw [opened]
    exact identifier?_identifier name stops
  have code : remark? (variableNamed name ++ rest) = none := rfl
  have unquoted : literal? (variableNamed name ++ rest) = none := rfl
  have piece : piece? (variableNamed name ++ rest) = some ([name], rest) := by
    simp [piece?, code, unquoted, access]
  exact accesses_piece piece

theorem accesses_remark (text : Text) :
    accesses ('/' :: '/' :: text) = accesses (text.dropWhile (· != '\n')) := by
  have piece : piece? ('/' :: '/' :: text) = some ([], text.dropWhile (· != '\n')) := rfl
  exact accesses_piece piece

example : accesses "vars.@\"a b\" = \"vars.B\"; // vars.C".toList = ["a b".toList] := by
  decide +kernel

theorem isPlain_of_blanks (blanks : ∀ c ∈ text, Text.isBlank c = true) : isPlain text = true := by
  induction text with
  | nil => rfl
  | cons c text ih =>
    have blank := blanks c List.mem_cons_self
    have quote : c ≠ '"' := by rintro rfl; cases blank
    have slash : c ≠ '/' := by rintro rfl; cases blank
    have first : c ≠ 'v' := by rintro rfl; cases blank
    have later := ih fun d member => blanks d (List.mem_cons_of_mem _ member)
    simp [isPlain, List.isPrefixOf, quote, slash, first, Ne.symm first, later]

theorem accesses_blanks (blanks : ∀ c ∈ text, Text.isBlank c = true) (rest : Text) :
    accesses (text ++ rest) = accesses rest :=
  accesses_plain (isPlain_of_blanks blanks) rest

theorem accesses_newline (text : Text) : accesses ('\n' :: text) = accesses text :=
  @accesses_plain ['\n'] rfl text

/-! The text in front of a gap, after which nothing in it goes on. -/

theorem hexDigit?_eq_none (blank : Text.isBlank c = true) : hexDigit? c = none := by
  have digit : c.isDigit = true ↔ 0x30 ≤ c.toNat ∧ c.toNat ≤ 0x39 := by
    simp only [Char.isDigit, Bool.and_eq_true, decide_eq_true_eq, ge_iff_le]
    rfl
  have lower : 'a' ≤ c ∧ c ≤ 'f' ↔ 0x61 ≤ c.toNat ∧ c.toNat ≤ 0x66 := Iff.rfl
  have upper : 'A' ≤ c ∧ c ≤ 'F' ↔ 0x41 ≤ c.toNat ∧ c.toNat ≤ 0x46 := Iff.rfl
  -- No blank lies between the space and the control characters above the letters.
  have apart : c.toNat ≤ 0x20 ∨ 0x85 ≤ c.toNat := by
    simp only [Text.isBlank, Bool.or_eq_true, Bool.and_eq_true, decide_eq_true_eq, beq_iff_eq] at blank
    omega
  clear blank
  unfold hexDigit?
  rw [if_neg (by rw [digit]; omega), if_neg (by rw [lower]; omega), if_neg (by rw [upper]; omega)]

/-- A number does not go on behind a blank. -/
theorem hex?_eq_none (blank : Text.isBlank c = true) (text more : Text) :
    hex? (text ++ c :: more) = none := by
  unfold hex?
  split
  · rfl
  · rw [List.foldlM_append]
    simp [hexDigit?_eq_none blank]

theorem escaped?_number (text : Text) :
    escaped? ('u' :: text) = (Text.after? ['\x7b'] text).bind fun inside =>
      (Text.cutAt? '\x7d' inside).bind fun cut => (hex? cut.1).bind fun n =>
        if n.isValidChar then some (Char.ofNat n, cut.2) else none := by
  rw [escaped?]
  rfl

theorem escaped?_letter (other : c ≠ 'u') (text : Text) :
    escaped? (c :: text) =
      if c = 'n' then some ('\n', text)
      else if c = 'r' then some ('\r', text)
      else if c = 't' then some ('\t', text)
      else if c = '\\' ∨ c = '"' then some (c, text)
      else none := by
  rw [escaped?]
  exact other

/-- A gap starts with a blank, no literal that is open in front of it ends in it, and no comment that
goes on into it hides an access. -/
structure Gap (rest : Text) : Prop where
  blank : ∀ c ∈ rest.head?, Text.isBlank c = true
  unclosed : quoted? rest = none
  remark : accesses (rest.dropWhile (· != '\n')) = accesses rest

namespace Gap

theorem newline (rest : Text) : Gap ('\n' :: rest) where
  blank := by simp [Text.isBlank]
  unclosed := by simp [quoted?]
  remark := by simp

theorem of_blanks (blanks : ∀ c ∈ text, Text.isBlank c = true) : Gap text where
  blank c member := blanks c (List.mem_of_mem_head? member)
  unclosed := by
    induction text with
    | nil => simp [quoted?]
    | cons c text ih =>
      have blank := blanks c List.mem_cons_self
      have later := ih fun d member => blanks d (List.mem_cons_of_mem _ member)
      by_cases newline : c = '\n'
      · subst newline
        simp [quoted?]
      · have quote : c ≠ '"' := by rintro rfl; cases blank
        have backslash : c ≠ '\\' := by rintro rfl; cases blank
        rw [quoted?_char quote backslash newline, later]
        rfl
  remark := by
    have ending : ∀ c ∈ text.dropWhile (· != '\n'), Text.isBlank c = true :=
      fun c member => blanks c ((List.dropWhile_suffix _).subset member)
    have whole := accesses_blanks blanks []
    have last := accesses_blanks ending []
    rw [List.append_nil] at whole last
    rw [whole, last]

theorem head_ne (gap : Gap (c :: rest)) {d : Char} (solid : Text.isBlank d = false) : c ≠ d := by
  rintro rfl
  exact absurd (gap.blank c rfl) (by simp [solid])

theorem after? {opening : Text} (gap : Gap rest)
    (solid : opening.all (!Text.isBlank ·) = true) (text : Text) :
    Text.after? opening (text ++ rest) = (Text.after? opening text).map (· ++ rest) := by
  induction opening generalizing text with
  | nil => rfl
  | cons a opening ih =>
    simp only [List.all_cons, Bool.and_eq_true, Bool.not_eq_true'] at solid
    cases text with
    | nil =>
      cases rest with
      | nil => rfl
      | cons c rest =>
        have other := gap.head_ne solid.1
        exact if_neg (Ne.symm other)
    | cons c text =>
      rw [List.cons_append, Text.after?, Text.after?]
      split
      · exact ih solid.2 text
      · rfl

/-- Brackets that are open in front of a gap are closed behind it around no number. -/
theorem hex?_of_cutAt? (gap : Gap rest) {digits : Text} (unclosed : Text.cutAt? '\x7d' text = none)
    (found : Text.cutAt? '\x7d' (text ++ rest) = some (digits, after)) : hex? digits = none := by
  have absent : '\x7d' ∉ text := by
    intro member
    obtain ⟨front, back, rfl, first⟩ := List.eq_append_cons_of_mem member
    rw [Text.cutAt?_append first] at unclosed
    cases unclosed
  rcases List.append_eq_append_iff.1 (Text.eq_append_of_cutAt? found) with
    ⟨more, rfl, behind⟩ | ⟨more, rfl, before⟩
  · cases more with
    | nil =>
      rw [behind] at gap
      exact absurd rfl (gap.head_ne (by decide))
    | cons c more =>
      rw [behind] at gap
      exact hex?_eq_none (gap.blank c rfl) text more
  · cases more with
    | nil =>
      rw [List.nil_append] at before
      rw [← before] at gap
      exact absurd rfl (gap.head_ne (by decide))
    | cons c more =>
      rw [List.cons_append, List.cons.injEq] at before
      rw [before.1] at absent
      simp at absent

theorem escaped? (gap : Gap rest) (text : Text) :
    Zig.escaped? (text ++ rest) = (Zig.escaped? text).map fun read => (read.1, read.2 ++ rest) := by
  cases text with
  | nil =>
    cases rest with
    | nil => rfl
    | cons c rest =>
      rw [List.nil_append, escaped?_letter (gap.head_ne (by decide)),
        if_neg (gap.head_ne (by decide)), if_neg (gap.head_ne (by decide)),
        if_neg (gap.head_ne (by decide)), if_neg]
      · rfl
      · exact not_or.2 ⟨gap.head_ne (by decide), gap.head_ne (by decide)⟩
  | cons c text =>
    rw [List.cons_append]
    by_cases number : c = 'u'
    · subst number
      rw [escaped?_number, escaped?_number, gap.after? (by decide)]
      cases Text.after? ['\x7b'] text with
      | none => rfl
      | some inside =>
        simp only [Option.map_some, Option.bind_some]
        cases closed : Text.cutAt? '\x7d' inside with
        | some cut =>
          rw [Text.cutAt?_of_some closed]
          simp only [Option.bind_some]
          cases hex? cut.1 with
          | none => rfl
          | some n => simp only [Option.bind_some]; split <;> rfl
        | none =>
          cases found : Text.cutAt? '\x7d' (inside ++ rest) with
          | none => rfl
          | some cut => simp only [Option.bind_some, gap.hex?_of_cutAt? closed found]; rfl
    · rw [escaped?_letter number, escaped?_letter number]
      repeat' split
      all_goals rfl

theorem quoted? (gap : Gap rest) (text : Text) :
    Zig.quoted? (text ++ rest) = (Zig.quoted? text).map fun read => (read.1, read.2 ++ rest) := by
  fun_induction Zig.quoted? text with
  | case1 => exact gap.unclosed
  | case2 text => simp [Zig.quoted?]
  | case3 text c after spelled _ ih =>
    have same := gap.escaped? text
    rw [spelled] at same
    rw [List.cons_append, quoted?_escape same, ih, Option.map_map, Option.map_map]
    rfl
  | case4 text spelled =>
    have same := gap.escaped? text
    rw [spelled] at same
    rw [List.cons_append, Zig.quoted?]
    split
    · next found => cases same.symm.trans found
    · rfl
  | case5 text => simp [Zig.quoted?]
  | case6 c text quote backslash newline ih =>
    rw [List.cons_append, quoted?_char quote backslash newline, ih, Option.map_map, Option.map_map]
    rfl

theorem literal? (gap : Gap rest) (text : Text) :
    Zig.literal? (text ++ rest) = (Zig.literal? text).map fun read => (read.1, read.2 ++ rest) := by
  cases text with
  | nil =>
    cases rest with
    | nil => rfl
    | cons c rest =>
      have quote : c ≠ '"' := gap.head_ne (by decide)
      simp [Zig.literal?, quote]
  | cons c text =>
    by_cases quote : c = '"'
    · subst quote
      exact gap.quoted? text
    · simp [Zig.literal?, quote]

theorem stops (gap : Gap rest) : ∀ c ∈ rest.head?, Text.isNameChar c = false := by
  intro c member
  by_contra named
  rw [Bool.not_eq_false] at named
  have solid := Text.isBlank_of_isNameChar named
  rw [gap.blank c member] at solid
  cases solid

theorem name? (gap : Gap rest) (text : Text) :
    Text.name? (text ++ rest) = (Text.name? text).map fun read => (read.1, read.2 ++ rest) := by
  cases text with
  | nil =>
    cases rest with
    | nil => rfl
    | cons c rest =>
      have start : ¬Text.isNameStart c = true := by
        intro start
        have named := Text.isNameChar_of_isNameStart start
        rw [gap.stops c rfl] at named
        cases named
      simp [Text.name?, start]
  | cons c text =>
    have run : ∀ d ∈ text.takeWhile Text.isNameChar, Text.isNameChar d = true :=
      fun d member => List.mem_takeWhile_imp member
    have stops : ∀ d ∈ (text.dropWhile Text.isNameChar ++ rest).head?, Text.isNameChar d = false := by
      have ends := List.head?_dropWhile_not Text.isNameChar text
      cases left : text.dropWhile Text.isNameChar with
      | nil => exact gap.stops
      | cons d left => simpa [left] using ends
    have whole : text ++ rest =
        text.takeWhile Text.isNameChar ++ (text.dropWhile Text.isNameChar ++ rest) := by
      rw [← List.append_assoc, List.takeWhile_append_dropWhile]
    rw [List.cons_append, Text.name?, Text.name?, whole, Text.takeWhile_append_stop run stops,
      Text.dropWhile_append_stop run stops]
    split <;> rfl

theorem identifier? (gap : Gap rest) (text : Text) :
    Zig.identifier? (text ++ rest) =
      (Zig.identifier? text).map fun read => (read.1, read.2 ++ rest) := by
  have plain (text : Text) (sign : ∀ inner, text ≠ '@' :: inner) : Zig.identifier? text =
      (Text.name? text).bind fun read => if isBare read.1 then some read else none := by
    rw [Zig.identifier?]
    · rfl
    · exact sign
  by_cases sign : ∃ inner, text = '@' :: inner
  · obtain ⟨inner, rfl⟩ := sign
    exact gap.literal? inner
  · have first : ∀ inner, text ≠ '@' :: inner := fun inner same => sign ⟨inner, same⟩
    have whole : ∀ inner, text ++ rest ≠ '@' :: inner := by
      intro inner same
      cases text with
      | nil =>
        rw [List.nil_append] at same
        rw [same] at gap
        exact absurd rfl (gap.head_ne (by decide))
      | cons c text =>
        rw [List.cons_append, List.cons.injEq] at same
        exact first text (by rw [same.1])
    rw [plain _ whole, plain _ first, gap.name?]
    cases Text.name? text with
    | none => rfl
    | some read =>
      simp only [Option.map_some, Option.bind_some]
      split <;> rfl

theorem access? (gap : Gap rest) (text : Text) :
    Zig.access? (text ++ rest) = (Zig.access? text).map fun read => (read.1, read.2 ++ rest) := by
  rw [Zig.access?, Zig.access?, gap.after? (by decide)]
  cases Text.after? "vars.".toList text with
  | none => rfl
  | some target => exact gap.identifier? target

theorem remark? (gap : Gap rest) (text : Text) :
    Zig.remark? (text ++ rest) =
      (Text.after? ['/', '/'] text).map fun inside => (inside ++ rest).dropWhile (· != '\n') := by
  rw [Zig.remark?, gap.after? (by decide), Option.map_map]
  rfl

/-- A comment may go on into the gap; any other piece ends in front of it. -/
theorem piece?_some (gap : Gap rest) {names : List Text} (found : piece? text = some (names, after)) :
    ∃ later, piece? (text ++ rest) = some (names, later) ∧
      accesses later = accesses (after ++ rest) := by
  unfold piece? at found ⊢
  rw [gap.remark?, gap.literal?, gap.access?]
  cases behind : Text.after? ['/', '/'] text with
  | some inside =>
    simp only [Zig.remark?, behind, Option.map_some, Option.some.injEq, Prod.mk.injEq] at found
    obtain ⟨rfl, rfl⟩ := found
    refine ⟨(inside ++ rest).dropWhile (· != '\n'), rfl, ?_⟩
    rw [List.dropWhile_append]
    split
    · next empty =>
      rw [List.isEmpty_iff.1 empty]
      exact gap.remark
    · rfl
  | none =>
    simp only [Zig.remark?, behind, Option.map_none] at found ⊢
    cases quoted : Zig.literal? text with
    | some read =>
      rw [quoted] at found
      cases found
      exact ⟨_, rfl, rfl⟩
    | none =>
      simp only [quoted, Option.map_none] at found ⊢
      obtain ⟨access, accessed, same⟩ := Option.map_eq_some_iff.1 found
      cases same
      rw [accessed]
      exact ⟨_, rfl, rfl⟩

theorem piece?_none (gap : Gap rest) (other : piece? text = none) : piece? (text ++ rest) = none := by
  unfold piece? at other ⊢
  rw [gap.remark?, gap.literal?, gap.access?]
  cases behind : Text.after? ['/', '/'] text with
  | some inside => simp [Zig.remark?, behind] at other
  | none =>
    simp only [Zig.remark?, behind, Option.map_none] at other ⊢
    cases quoted : Zig.literal? text with
    | some read =>
      rw [quoted] at other
      cases other
    | none =>
      simp only [quoted, Option.map_none, Option.map_eq_none_iff] at other ⊢
      exact other

end Gap

/-- Induction along the reader: what it meets in front of a gap it meets with the gap behind it. -/
theorem accesses_append (gap : Gap rest) (text : Text) :
    accesses (text ++ rest) = accesses text ++ accesses rest := by
  fun_induction accesses text with
  | case1 => rfl
  | case2 c text names after found _ ih =>
    obtain ⟨later, taken, same⟩ := gap.piece?_some found
    rw [accesses_piece taken, same, ih, List.append_assoc]
  | case3 c text other ih =>
    have skipped := gap.piece?_none other
    rw [List.cons_append] at skipped ⊢
    rw [accesses_skip skipped, ih]

/-! Lines. -/

theorem accesses_statement (line : Text) : accesses (statement line) = accesses line := by
  obtain ⟨ending, whole, blanks, _⟩ := Text.trimEnd_split line
  have behind := accesses_blanks blanks []
  have front : ∀ c ∈ (Text.trimEnd line).takeWhile Text.isBlank, Text.isBlank c = true :=
    fun c member => List.mem_takeWhile_imp member
  have started := accesses_blanks front (statement line)
  rw [statement, Text.trimStart, List.takeWhile_append_dropWhile] at started
  rw [List.append_nil] at behind
  conv_rhs => rw [whole, accesses_append (Gap.of_blanks blanks), behind]
  rw [statement, Text.trimStart, ← started]
  simp [accesses]

theorem byLine_accesses : ByLine fun names text => some (names ++ accesses text) where
  nil names := by simp [accesses]
  append names left right := by
    rw [accesses_append (Gap.newline right), accesses_newline]
    simp
  line names line other _ _ same := by
    rw [← accesses_statement line, same, accesses_statement]

theorem accesses_indent (text : Text) : accesses (indent text) = accesses text := by
  simpa using byLine_accesses.indent [] text

/-- A block accesses what its body does. -/
theorem mem_accesses_block (member : name ∈ accesses (block text ++ rest)) :
    name ∈ accesses text ∨ name ∈ accesses rest := by
  unfold block at member
  split at member
  · rw [accesses_plain rfl] at member
    exact .inr member
  · have inside : ['\x7b', '\n'] ++ indent text ++ ['\n', '\x7d'] ++ rest =
        ['\x7b', '\n'] ++ (indent text ++ '\n' :: (['\x7d'] ++ rest)) := by simp
    rw [inside, accesses_plain rfl, accesses_append (Gap.newline _), accesses_indent,
      accesses_newline, accesses_plain rfl] at member
    exact List.mem_append.1 member

/-- A text of comments, one on each line. -/
def isRemark (text : Text) : Bool :=
  (Text.splitOn '\n' text).all fun line => ['/', '/'].isPrefixOf line

/-- A comment hides the rest of its line. -/
theorem mem_accesses_dropWhile (member : name ∈ accesses (rest.dropWhile (· != '\n'))) :
    name ∈ accesses rest := by
  have ends := List.head?_dropWhile_not (· != '\n') rest
  have whole : rest.takeWhile (· != '\n') ++ rest.dropWhile (· != '\n') = rest :=
    List.takeWhile_append_dropWhile
  cases left : rest.dropWhile (· != '\n') with
  | nil =>
    rw [left] at member
    simp [accesses] at member
  | cons c behind =>
    have newline : c = '\n' := by simpa [left] using ends
    subst newline
    rw [left] at member whole
    rw [← whole, accesses_append (Gap.newline behind)]
    exact List.mem_append_right _ member

theorem mem_accesses_remarks {lines : List Text}
    (each : ∀ line ∈ lines, ['/', '/'].isPrefixOf line = true ∧ '\n' ∉ line)
    (member : name ∈ accesses (Text.joinWith ['\n'] lines ++ rest)) : name ∈ accesses rest := by
  induction lines with
  | nil => exact member
  | cons line lines ih =>
    obtain ⟨begins, oneLine⟩ := each line List.mem_cons_self
    obtain ⟨remark, rfl⟩ := List.isPrefixOf_iff_prefix.1 begins
    have inside : ∀ c ∈ remark, (c != '\n') = true := by
      intro c member
      simp only [bne_iff_ne]
      rintro rfl
      exact oneLine (List.mem_append_right _ member)
    have hidden (behind : Text) : accesses (['/', '/'] ++ remark ++ behind) =
        accesses (behind.dropWhile (· != '\n')) := by
      rw [List.append_assoc]
      refine (accesses_remark (remark ++ behind)).trans ?_
      rw [List.dropWhile_append_of_pos inside]
    cases lines with
    | nil =>
      rw [Text.joinWith, hidden] at member
      exact mem_accesses_dropWhile member
    | cons next lines =>
      apply ih fun other later => each other (List.mem_cons_of_mem _ later)
      rw [Text.joinWith, List.append_assoc, List.append_assoc, hidden] at member
      · simpa [accesses_newline] using member
      · simp

theorem mem_accesses_remark (remark : isRemark text = true)
    (member : name ∈ accesses (text ++ rest)) : name ∈ accesses rest := by
  rw [← Text.joinWith_splitOn '\n' text] at member
  apply mem_accesses_remarks _ member
  intro line listed
  exact ⟨List.all_eq_true.1 remark line listed, Text.not_mem_of_mem_splitOn listed⟩

/-! Texts that are passed on. Unlike fixed text, such a text may end in the start of an access, and is
cut off in time. -/

/-- A character over which neither a name nor the start of an access goes on. -/
def isStop (c : Char) : Bool :=
  !Text.isNameChar c && c != '.'

theorem isNameChar_of_isStop (stops : isStop c = true) : Text.isNameChar c = false := by
  simp only [isStop, Bool.and_eq_true, Bool.not_eq_true'] at stops
  exact stops.1

/-- A text in which nothing is quoted, remarked on or accessed. -/
def isSilent : Text → Bool
  | [] => true
  | c :: rest => c != '"' && c != '/' && !"vars.".toList.isPrefixOf (c :: rest) && isSilent rest

theorem after?_eq_none_of_stop {opening : Text} (opened : opening.isPrefixOf text = false)
    (solid : opening.all (!isStop ·) = true) (stops : ∀ c ∈ rest.head?, isStop c = true) :
    Text.after? opening (text ++ rest) = none := by
  induction opening generalizing text with
  | nil => cases opened
  | cons a opening ih =>
    simp only [List.all_cons, Bool.and_eq_true, Bool.not_eq_true'] at solid
    cases text with
    | nil =>
      cases rest with
      | nil => rfl
      | cons c rest =>
        apply if_neg
        rintro rfl
        exact absurd (stops a rfl) (by simp [solid.1])
    | cons c text =>
      rw [List.cons_append, Text.after?]
      split
      · next same =>
        subst same
        exact ih (by simpa [List.isPrefixOf] using opened) solid.2
      · rfl

theorem accesses_silent (silent : isSilent text = true) (stops : ∀ c ∈ rest.head?, isStop c = true) :
    accesses (text ++ rest) = accesses rest := by
  induction text with
  | nil => rfl
  | cons c text ih =>
    simp only [isSilent, Bool.and_eq_true, bne_iff_ne, Bool.not_eq_true'] at silent
    obtain ⟨⟨⟨quote, slash⟩, opened⟩, later⟩ := silent
    have access : access? (c :: text ++ rest) = none := by
      rw [access?, after?_eq_none_of_stop opened (by decide) stops]
      rfl
    rw [List.cons_append] at access ⊢
    rw [accesses_skip, ih later]
    simp [piece?, remark?, Text.after?, literal?, quote, Ne.symm slash, access]

/-- No name holds the dot of an access. -/
theorem isSilent_of_name (named : Text.isName text = true) : isSilent text = true := by
  have each := fun c (member : c ∈ text) => Text.isNameChar_of_mem named member
  clear named
  induction text with
  | nil => rfl
  | cons c text ih =>
    obtain ⟨first, others⟩ := List.forall_mem_cons.1 each
    have quote : c ≠ '"' := by rintro rfl; cases first
    have slash : c ≠ '/' := by rintro rfl; cases first
    have opened : "vars.".toList.isPrefixOf (c :: text) = false := by
      rw [Bool.eq_false_iff, ne_eq, List.isPrefixOf_iff_prefix]
      intro starts
      exact absurd (each '.' (starts.subset (by decide))) (by decide)
    simp only [isSilent, Bool.and_eq_true, bne_iff_ne, Bool.not_eq_true']
    exact ⟨⟨⟨quote, slash⟩, opened⟩, ih others⟩

/-- A text of comments, or one in which there is nothing for a reader. -/
def isQuiet (text : Text) : Bool :=
  isRemark text || isSilent text

theorem mem_accesses_quiet (quiet : isQuiet text = true) (stops : ∀ c ∈ rest.head?, isStop c = true)
    (member : name ∈ accesses (text ++ rest)) : name ∈ accesses rest := by
  rcases Bool.or_eq_true_iff.1 quiet with remark | silent
  · exact mem_accesses_remark remark member
  · rwa [accesses_silent silent stops] at member

end BmakeZig.Zig
