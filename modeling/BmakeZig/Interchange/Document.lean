import BmakeZig.Interchange.Form
import BmakeZig.Text.Basic

/-! Forms as documents write them: words, quoted texts, lists in square brackets and labelled fields
in braces. Blanks may stand between any two of these. A reader takes what is still unread and hands
back what it leaves. -/
namespace BmakeZig.Document

abbrev Reader (α : Type) := Text → Option (α × Text)

def skipGap (text : Text) : Text :=
  text.dropWhile fun c => Text.isSpace c || c == '\n'

/-! Words: the three constants and the numbers. -/

/-- Digits alone, the first of them zero only when no other follows. -/
def isWhole : Text → Bool
  | [] => false
  | first :: rest => first.isDigit && rest.all Char.isDigit && (first != '0' || rest.isEmpty)

def isDigits (text : Text) : Bool :=
  !text.isEmpty && text.all Char.isDigit

/-- Nothing, or a mark with digits behind it; one sign may stand in front of the digits. -/
def isExponent : Text → Bool
  | [] => true
  | mark :: '+' :: digits => (mark == 'e' || mark == 'E') && isDigits digits
  | mark :: '-' :: digits => (mark == 'e' || mark == 'E') && isDigits digits
  | mark :: digits => (mark == 'e' || mark == 'E') && isDigits digits

/-- What may follow the whole part of a number: a fraction, an exponent, both or neither. -/
def isScale : Text → Bool
  | '.' :: rest =>
    isDigits (rest.takeWhile Char.isDigit) && isExponent (rest.dropWhile Char.isDigit)
  | rest => isExponent rest

def isNumeral (text : Text) : Bool :=
  let unsigned := (Text.after? ['-'] text).getD text
  isWhole (unsigned.takeWhile Char.isDigit) && isScale (unsigned.dropWhile Char.isDigit)

/-- The number that digits stand for. -/
def value (digits : Text) : Nat :=
  digits.foldl (fun n digit => 10 * n + (digit.toNat - Char.toNat '0')) 0

def word? (word : Text) : Option Form :=
  if word = "null".toList then some .null
  else if word = "true".toList then some (.flag true)
  else if word = "false".toList then some (.flag false)
  else if isWhole word then some (.natural (value word))
  else if isNumeral word then some (.numeral word)
  else none

def isWordChar (c : Char) : Bool :=
  c.isAlphanum || c == '+' || c == '-' || c == '.'

def word : Reader Form := fun text =>
  (word? (text.takeWhile isWordChar)).map fun form => (form, text.dropWhile isWordChar)

/-! Quoted texts. -/

def hexDigit? (c : Char) : Option Nat :=
  if c.isDigit then some (c.toNat - Char.toNat '0')
  else if 'a' ≤ c ∧ c ≤ 'f' then some (c.toNat - Char.toNat 'a' + 10)
  else if 'A' ≤ c ∧ c ≤ 'F' then some (c.toNat - Char.toNat 'A' + 10)
  else none

/-- A number below `2 ^ 16` in four hexadecimal digits. -/
def unit : Reader Nat
  | a :: b :: c :: d :: rest =>
    ([a, b, c, d].mapM hexDigit?).map fun digits =>
      (digits.foldl (fun n digit => 16 * n + digit) 0, rest)
  | _ => none

/-- A character by its number. One beyond the first `2 ^ 16` is given by two halves, of which
neither may stand alone. -/
def numbered : Reader Char := fun text =>
  match unit text with
  | none => none
  | some (high, after) =>
    if high < 0xd800 ∨ 0xe000 ≤ high then some (Char.ofNat high, after)
    else if 0xdc00 ≤ high then none
    else
      match (Text.after? ['\\', 'u'] after).bind unit with
      | none => none
      | some (low, rest) =>
        if 0xdc00 ≤ low ∧ low < 0xe000 then
          some (Char.ofNat (0x10000 + 0x400 * (high - 0xd800) + (low - 0xdc00)), rest)
        else none

/-- The characters that have a short escape, under the letters that stand for them. -/
def escapes : List (Char × Char) :=
  [('"', '"'), ('\\', '\\'), ('/', '/'), ('b', '\x08'), ('f', '\x0c'), ('n', '\n'), ('r', '\r'),
    ('t', '\t')]

/-- One character of a quoted text. The closing quote is none, nor is a control character that is
not escaped. -/
def symbol : Reader Char
  | '\\' :: 'u' :: rest => numbered rest
  | '\\' :: c :: rest => (escapes.lookup c).map fun escaped => (escaped, rest)
  | c :: rest => if c = '"' ∨ c = '\\' ∨ c.toNat < 0x20 then none else some (c, rest)
  | [] => none

theorem length_of_unit {text rest : Text} {n : Nat} (found : unit text = some (n, rest)) :
    rest.length < text.length := by
  unfold unit at found
  split at found
  · simp only [Option.map_eq_some_iff, Prod.mk.injEq] at found
    obtain ⟨_, _, _, rfl⟩ := found
    simp only [List.length_cons]
    omega
  · simp at found

theorem length_of_numbered {text rest : Text} {c : Char} (found : numbered text = some (c, rest)) :
    rest.length < text.length := by
  unfold numbered at found
  split at found
  · simp at found
  · next high after first =>
    have short := length_of_unit first
    split at found
    · simp_all
    · split at found
      · simp at found
      · split at found
        · simp at found
        · next low rest' second =>
          obtain ⟨behind, opened, inner⟩ := Option.bind_eq_some_iff.1 second
          have := Text.length_of_after? opened
          have := length_of_unit inner
          split at found
          · simp only [Option.some.injEq, Prod.mk.injEq] at found
            obtain ⟨_, rfl⟩ := found
            omega
          · simp at found

theorem length_of_symbol {text rest : Text} {c : Char} (found : symbol text = some (c, rest)) :
    rest.length < text.length := by
  unfold symbol at found
  split at found
  · have := length_of_numbered found
    simp only [List.length_cons]
    omega
  · simp only [Option.map_eq_some_iff, Prod.mk.injEq] at found
    obtain ⟨_, _, _, rfl⟩ := found
    simp only [List.length_cons]
    omega
  · split at found
    · simp at found
    · simp_all
  · simp at found

/-- The text up to the closing quote, read behind the opening one. -/
def quoted (text : Text) : Option (Text × Text) :=
  match found : symbol text with
  | some (c, rest) =>
    have := length_of_symbol found
    (quoted rest).map fun more => (c :: more.1, more.2)
  | none => (Text.after? ['"'] text).map fun rest => ([], rest)
termination_by text.length

/-! Lists and fields. -/

/-- One or more items with commas between them, up to the closing mark. `limit` bounds the number
of items. -/
def items (item : Reader α) (closing : Char) : Nat → Reader (List α)
  | 0, _ => none
  | limit + 1, text =>
    match item text with
    | none => none
    | some (first, after) =>
      match skipGap after with
      | ',' :: rest =>
        (items item closing limit rest).map fun more => (first :: more.1, more.2)
      | c :: rest => if c = closing then some ([first], rest) else none
      | [] => none

/-- The items up to the closing mark, of which there may be none. -/
def enclosed (item : Reader α) (closing : Char) : Reader (List α) := fun text =>
  match Text.after? [closing] (skipGap text) with
  | some rest => some ([], rest)
  | none => items item closing text.length text

/-- A label, a colon and what stands under the label. -/
def field (content : Reader Form) : Reader (Text × Form) := fun text =>
  match skipGap text with
  | '"' :: inside =>
    match quoted inside with
    | none => none
    | some (label, after) =>
      match skipGap after with
      | ':' :: rest => (content rest).map fun found => ((label, found.1), found.2)
      | _ => none
  | _ => none

/-- The last field under each label. -/
def lastOfEach : List (Text × Form) → List (Text × Form)
  | [] => []
  | entry :: rest =>
    if rest.any fun later => later.1 = entry.1 then lastOfEach rest else entry :: lastOfEach rest

/-- A form with at most `depth` brackets around any part of it. -/
def formWithin : Nat → Reader Form
  | 0 => fun _ => none
  | depth + 1 => fun text =>
    match skipGap text with
    | '"' :: inside => (quoted inside).map fun found => (.text found.1, found.2)
    | '[' :: inside =>
      (enclosed (formWithin depth) ']' inside).map fun found => (.list found.1, found.2)
    | '\x7b' :: inside =>
      (enclosed (field (formWithin depth)) '\x7d' inside).map fun found =>
        (.fields (lastOfEach found.1), found.2)
    | whole => word whole

end BmakeZig.Document

namespace BmakeZig.Form

/-- The form that a document writes. It has fewer brackets than characters, so none is too deep. -/
def ofText? (text : Text) : Option Form :=
  match Document.formWithin (text.length + 1) text with
  | some (form, rest) => if Document.skipGap rest = [] then some form else none
  | none => none

end BmakeZig.Form
