import BmakeZig.Proofs.Zig.Layout
import BmakeZig.Proofs.Zig.Reading

/-! The emitted text as a lexer of Zig goes through it: strings with escapes, which end on their own
line, comments up to the end of theirs, and brackets in all the rest. A text is `Inline` when a scan
comes out of it in code with the same brackets open, and `Whole` when the same holds once its last
line is over, so that it may end in a comment. Whole texts go one below the other, and a block of a
whole text is inline again. -/
namespace BmakeZig.Zig

/-- Where a scan stands: in code, there behind one slash, in a string, there behind a backslash, or in
a comment. -/
inductive Place where
  | code
  | slash
  | string
  | escape
  | comment
deriving DecidableEq, Repr

structure Scan where
  place : Place := .code
  /-- The brackets that are open, the innermost first. -/
  opened : List Char := []
deriving DecidableEq, Repr

namespace Scan

/-- The bracket that a bracket closes. -/
def opening? : Char → Option Char
  | ')' => some '('
  | ']' => some '['
  | '\x7d' => some '\x7b'
  | _ => none

/-- The open brackets behind a character of code. A bracket closes the innermost one or none. -/
def bracket (opened : List Char) (c : Char) : Option (List Char) :=
  if c = '(' ∨ c = '[' ∨ c = '\x7b' then some (c :: opened)
  else
    match opening? c with
    | none => some opened
    | some opening => if opened.head? = some opening then some opened.tail else none

/-- One character. A line must not end in a string. -/
def step (scan : Scan) (c : Char) : Option Scan :=
  match scan.place with
  | .string =>
    if c = '\n' then none
    else if c = '"' then some ⟨.code, scan.opened⟩
    else if c = '\\' then some ⟨.escape, scan.opened⟩
    else some scan
  | .escape => if c = '\n' then none else some ⟨.string, scan.opened⟩
  | .comment => if c = '\n' then some ⟨.code, scan.opened⟩ else some scan
  | place =>
    if c = '/' then some ⟨if place = .slash then .comment else .slash, scan.opened⟩
    else if c = '"' then some ⟨.string, scan.opened⟩
    else (bracket scan.opened c).map (⟨.code, ·⟩)

def run (scan : Scan) (text : Text) : Option Scan :=
  text.foldlM step scan

/-- The open brackets, outside of strings. -/
def outside : Scan → Option (List Char)
  | ⟨.string, _⟩ | ⟨.escape, _⟩ => none
  | ⟨_, opened⟩ => some opened

end Scan

/-- The brackets open behind a text of code, if it does not end in a string. -/
def brackets (opened : List Char) (text : Text) : Option (List Char) :=
  (Scan.run ⟨.code, opened⟩ text).bind Scan.outside

/-- Whether a scan of the text meets no bracket out of place and no line that ends in a string, and
ends outside of strings with no bracket open. -/
def isClosed (text : Text) : Bool :=
  brackets [] text = some []

namespace Scan

variable {text left right : Text} {opened : List Char} {c : Char}

theorem run_append (scan : Scan) (left right : Text) :
    scan.run (left ++ right) = (scan.run left).bind (·.run right) :=
  List.foldlM_append

theorem run_cons (scan : Scan) (c : Char) (text : Text) :
    scan.run (c :: text) = (scan.step c).bind (·.run text) :=
  rfl

theorem step_newline (scan : Scan) : scan.step '\n' = scan.outside.map (⟨.code, ·⟩) := by
  obtain ⟨place, opened⟩ := scan
  cases place <;> rfl

/-- The characters that a scan does not just pass over in code. -/
def marks : Text :=
  ['/', '"', '(', ')', '[', ']', '\x7b', '\x7d']

theorem step_plain {place : Place} (plain : c ∉ marks) (within : place = .code ∨ place = .slash)
    (opened : List Char) : step ⟨place, opened⟩ c = some ⟨.code, opened⟩ := by
  simp only [marks, List.mem_cons, List.not_mem_nil, or_false, not_or] at plain
  obtain ⟨slash, quote, round, closesRound, square, closesSquare, curly, closesCurly⟩ := plain
  have none : opening? c = none := by
    unfold opening?
    split <;> first | contradiction | rfl
  rcases within with rfl | rfl <;> simp [step, bracket, slash, quote, round, square, curly, none]

theorem run_plain (plain : ∀ c ∈ text, c ∉ marks) (opened : List Char) :
    run ⟨.code, opened⟩ text = some ⟨.code, opened⟩ := by
  induction text with
  | nil => rfl
  | cons c text ih =>
    rw [run_cons, step_plain (plain c List.mem_cons_self) (.inl rfl)]
    exact ih fun d member => plain d (List.mem_cons_of_mem _ member)

theorem run_comment (oneLine : '\n' ∉ text) (opened : List Char) :
    run ⟨.comment, opened⟩ text = some ⟨.comment, opened⟩ := by
  induction text with
  | nil => rfl
  | cons c text ih =>
    rw [List.mem_cons, not_or] at oneLine
    have stays : step ⟨.comment, opened⟩ c = some ⟨.comment, opened⟩ := if_neg (Ne.symm oneLine.1)
    rw [run_cons, stays]
    exact ih oneLine.2

/-! Brackets further out do not count. -/

theorem bracket_frame {after : List Char} (done : bracket opened c = some after)
    (outer : List Char) : bracket (opened ++ outer) c = some (after ++ outer) := by
  unfold bracket at done ⊢
  split_ifs at done ⊢ with opens
  · cases done
    rfl
  · cases found : opening? c with
    | none =>
      rw [found] at done
      cases done
      rfl
    | some opening =>
      simp only [found] at done ⊢
      cases opened with
      | nil => cases done
      | cons innermost rest =>
        by_cases same : innermost = opening
        · simp only [List.head?_cons, List.tail_cons, List.cons_append, same, if_true] at done ⊢
          cases done
          rfl
        · simp [same] at done

theorem step_frame {scan after : Scan} (done : scan.step c = some after) (outer : List Char) :
    step ⟨scan.place, scan.opened ++ outer⟩ c = some ⟨after.place, after.opened ++ outer⟩ := by
  obtain ⟨place, opened⟩ := scan
  cases place with
  | string | escape | comment =>
    simp only [step] at done ⊢
    split_ifs at done ⊢ <;> cases done <;> rfl
  | code | slash =>
    by_cases slash : c = '/'
    · simp only [step, if_pos slash] at done ⊢
      cases done
      rfl
    by_cases quote : c = '"'
    · simp only [step, if_neg slash, if_pos quote] at done ⊢
      cases done
      rfl
    · simp only [step, if_neg slash, if_neg quote] at done ⊢
      obtain ⟨kept, found, rfl⟩ := Option.map_eq_some_iff.1 done
      rw [bracket_frame found]
      rfl

theorem run_frame {scan after : Scan} (done : scan.run text = some after) (outer : List Char) :
    run ⟨scan.place, scan.opened ++ outer⟩ text = some ⟨after.place, after.opened ++ outer⟩ := by
  induction text generalizing scan with
  | nil =>
    cases done
    rfl
  | cons c text ih =>
    rw [run_cons] at done ⊢
    obtain ⟨middle, stepped, done⟩ := Option.bind_eq_some_iff.1 done
    rw [step_frame stepped outer]
    exact ih done

/-! Blanks. -/

theorem not_mem_marks_of_isBlank (blank : Text.isBlank c = true) : c ∉ marks := by
  have solid : marks.all (!Text.isBlank ·) = true := by decide
  intro member
  have other := List.all_eq_true.1 solid c member
  rw [blank] at other
  cases other

/-- A blank leads neither into a string nor out of one. -/
theorem outside_step (blank : Text.isBlank c = true) (scan : Scan) :
    (scan.step c).bind outside = scan.outside := by
  have plain := not_mem_marks_of_isBlank blank
  obtain ⟨place, opened⟩ := scan
  cases place with
  | code => rw [step_plain plain (.inl rfl)]; rfl
  | slash => rw [step_plain plain (.inr rfl)]; rfl
  | string =>
    have quote : c ≠ '"' := by
      rintro rfl
      cases blank
    simp only [step, if_neg quote]
    split
    · rfl
    · split <;> rfl
  | escape =>
    simp only [step]
    split <;> rfl
  | comment =>
    simp only [step]
    split <;> rfl

theorem outside_run (blanks : ∀ c ∈ text, Text.isBlank c = true) (scan : Scan) :
    (scan.run text).bind outside = scan.outside := by
  induction text generalizing scan with
  | nil => rfl
  | cons c text ih =>
    have rest := ih fun d member => blanks d (List.mem_cons_of_mem _ member)
    rw [run_cons, Option.bind_assoc, ← outside_step (blanks c List.mem_cons_self) scan]
    exact congrArg _ (funext rest)

end Scan

section Lines

variable {text left right line : Text} {opened : List Char}

theorem brackets_trimEnd (opened : List Char) (text : Text) :
    brackets opened (Text.trimEnd text) = brackets opened text := by
  obtain ⟨ending, whole, blanks, _⟩ := Text.trimEnd_split text
  conv_rhs => rw [brackets, whole, Scan.run_append, Option.bind_assoc]
  exact congrArg _ (funext fun scan => (Scan.outside_run blanks scan).symm)

theorem brackets_trimStart (opened : List Char) (text : Text) :
    brackets opened (Text.trimStart text) = brackets opened text := by
  have blanks : ∀ c ∈ text.takeWhile Text.isBlank, c ∉ Scan.marks := by
    intro c member
    exact Scan.not_mem_marks_of_isBlank (List.mem_takeWhile_imp member)
  conv_rhs => rw [← List.takeWhile_append_dropWhile (p := Text.isBlank) (l := text), brackets,
    Scan.run_append, Scan.run_plain blanks]
  rfl

/-- Scanning goes line by line: a line break ends a comment, and there is none in a string. -/
theorem byLine_brackets : ByLine brackets where
  nil _ := rfl
  append opened left right := by
    unfold brackets
    rw [Scan.run_append, Option.bind_assoc, Option.bind_assoc]
    refine congrArg _ (funext fun scan => ?_)
    rw [Scan.run_cons, Scan.step_newline]
    cases scan.outside <;> rfl
  line opened line other _ _ same := by
    rw [← brackets_trimEnd, ← brackets_trimStart, ← brackets_trimEnd opened other,
      ← brackets_trimStart opened (Text.trimEnd other)]
    exact congrArg _ same

end Lines

def Inline (text : Text) : Prop :=
  ∀ opened, Scan.run ⟨.code, opened⟩ text = some ⟨.code, opened⟩

def Whole (text : Text) : Prop :=
  ∀ opened, brackets opened text = some opened

variable {text left right : Text} {texts : List Text}

/-- A text that leaves nothing open by itself does so among open brackets. -/
theorem inline_of_run (done : Scan.run {} text = some {}) : Inline text :=
  Scan.run_frame done

theorem inline_nil : Inline [] :=
  fun _ => rfl

namespace Inline

theorem append (first : Inline left) (second : Inline right) : Inline (left ++ right) := by
  intro opened
  rw [Scan.run_append, first opened]
  exact second opened

theorem whole (inline : Inline text) : Whole text := by
  intro opened
  rw [brackets, inline opened]
  rfl

theorem joinWith {separator : Text} (between : Inline separator)
    (each : ∀ text ∈ texts, Inline text) : Inline (Text.joinWith separator texts) := by
  induction texts with
  | nil => exact inline_nil
  | cons text texts ih =>
    have first := each text List.mem_cons_self
    cases texts with
    | nil => exact first
    | cons next texts =>
      have rest := ih fun other member => each other (List.mem_cons_of_mem _ member)
      rw [Text.joinWith]
      · exact (first.append between).append rest
      · simp

/-- A text between two that open and close the same brackets. -/
theorem within {opening closing : Text} (inline : Inline text) (stack : List Char)
    (opens : Scan.run {} opening = some ⟨.code, stack⟩)
    (closes : Scan.run ⟨.code, stack⟩ closing = some {}) : Inline (opening ++ text ++ closing) := by
  intro opened
  have start : Scan.run ⟨.code, opened⟩ opening = some ⟨.code, stack ++ opened⟩ :=
    Scan.run_frame opens opened
  rw [Scan.run_append, Scan.run_append, start, Option.bind_some, inline, Option.bind_some]
  exact Scan.run_frame closes opened

end Inline

namespace Whole

theorem isClosed (whole : Whole text) : isClosed text = true := by
  simp [Zig.isClosed, whole []]

example : Zig.isClosed "f(\"(\\\"\"); // [".toList = true ∧ Zig.isClosed "f(]".toList = false ∧
    Zig.isClosed "\"a\nb\"".toList = false := by
  decide

theorem below (whole : Whole left) (last : Whole right) : Whole (left ++ '\n' :: right) := by
  intro opened
  rw [byLine_brackets.append, whole opened]
  exact last opened

theorem behind (whole : Whole right) (first : Inline left) : Whole (left ++ right) := by
  intro opened
  rw [brackets, Scan.run_append, first opened]
  exact whole opened

theorem joinWith (each : ∀ text ∈ texts, Whole text) : Whole (Text.joinWith ['\n'] texts) := by
  intro opened
  rw [byLine_brackets.joinWith]
  induction texts with
  | nil => rfl
  | cons text texts ih =>
    rw [List.foldlM_cons, each text List.mem_cons_self]
    exact ih fun other member => each other (List.mem_cons_of_mem _ member)

theorem indent (whole : Whole text) : Whole (indent text) := by
  intro opened
  rw [byLine_brackets.indent]
  exact whole opened

theorem block (whole : Whole text) : Inline (block text) := by
  unfold Zig.block
  split
  · exact fun _ => rfl
  · intro opened
    -- The line break in front of the last brace ends whatever comment the body ends in.
    obtain ⟨scan, ran, outside⟩ := Option.bind_eq_some_iff.1 (whole.indent ('\x7b' :: opened))
    have ends : scan.step '\n' = some ⟨.code, '\x7b' :: opened⟩ := by
      rw [Scan.step_newline, outside]
      rfl
    have start : Scan.run ⟨.code, opened⟩ ['\x7b', '\n'] = some ⟨.code, '\x7b' :: opened⟩ := rfl
    rw [Scan.run_append, Scan.run_append, start, Option.bind_some, ran, Option.bind_some,
      Scan.run_cons, ends]
    rfl

end Whole

theorem whole_comment (oneLine : '\n' ∉ text) : Whole ('/' :: '/' :: text) := by
  intro opened
  have start : Scan.run ⟨.code, opened⟩ ('/' :: '/' :: text) = Scan.run ⟨.comment, opened⟩ text := rfl
  rw [brackets, start, Scan.run_comment oneLine]
  rfl

/-! Literals and names. -/

/-- The characters that do not just stand for themselves in a string. -/
def Scan.stringMarks : Text :=
  ['\n', '"', '\\']

theorem Scan.run_string (plain : ∀ c ∈ text, c ∉ stringMarks) (opened : List Char) :
    run ⟨.string, opened⟩ text = some ⟨.string, opened⟩ := by
  induction text with
  | nil => rfl
  | cons c text ih =>
    have first := plain c List.mem_cons_self
    simp only [stringMarks, List.mem_cons, List.not_mem_nil, or_false, not_or] at first
    have stays : step ⟨.string, opened⟩ c = some ⟨.string, opened⟩ := by simp [step, first]
    rw [run_cons, stays]
    exact ih fun d member => plain d (List.mem_cons_of_mem _ member)

theorem Scan.run_escape (c : Char) (opened : List Char) :
    run ⟨.string, opened⟩ (escape c) = some ⟨.string, opened⟩ := by
  unfold escape
  split
  iterate 5 rfl
  next backslash quote newline _ _ =>
    split
    · next control =>
      have digits : ∀ d ∈ Nat.toDigits 16 c.toNat, d ∉ stringMarks := by
        intro d member mark
        have others : stringMarks.all (!Text.isNameChar ·) = true := by decide
        have other := List.all_eq_true.1 others d mark
        rw [isNameChar_of_mem_toDigits (toNat_of_isControl control) member] at other
        cases other
      have start : run ⟨.string, opened⟩ "\\u\x7b".toList = some ⟨.string, opened⟩ := rfl
      rw [run_append, run_append, start, Option.bind_some, run_string digits]
      rfl
    · refine run_string (fun d member => ?_) opened
      rw [List.mem_singleton.1 member]
      simp only [stringMarks, List.mem_cons, List.not_mem_nil, or_false, not_or]
      exact ⟨newline, quote, backslash⟩

theorem inline_literal (text : Text) : Inline (literal text) := by
  intro opened
  have inner : Scan.run ⟨.string, opened⟩ (text.flatMap escape) = some ⟨.string, opened⟩ := by
    induction text with
    | nil => rfl
    | cons c text ih =>
      rw [List.flatMap_cons, Scan.run_append, Scan.run_escape]
      exact ih
  have start : Scan.run ⟨.code, opened⟩ (literal text) =
      Scan.run ⟨.string, opened⟩ (text.flatMap escape ++ ['"']) := rfl
  rw [start, Scan.run_append, inner]
  rfl

theorem inline_name {name : Text} (named : Text.isName name = true) : Inline name := by
  have plain : Scan.marks.all (!Text.isNameChar ·) = true := by decide
  intro opened
  refine Scan.run_plain (fun c member marked => ?_) opened
  have other := List.all_eq_true.1 plain c marked
  rw [Text.isNameChar_of_mem named member] at other
  cases other

theorem inline_identifier (name : Text) : Inline (identifier name) := by
  unfold identifier
  split
  · next bare => exact inline_name (isName_of_isBare bare)
  · have sign : Inline ['@'] := fun _ => rfl
    exact sign.append (inline_literal name)

end BmakeZig.Zig
