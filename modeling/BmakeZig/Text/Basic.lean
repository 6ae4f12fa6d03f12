/-! Texts as lists of characters, with the few cuts and joins that the rest of the library is
written in. A reader of a text takes what is still unread and hands back what it leaves; the span
it covered is recovered from the two by `consumed`. -/
namespace BmakeZig

abbrev Text := List Char

namespace Text

/-- The decimal digits of a number. -/
def ofNat (n : Nat) : Text :=
  Nat.toDigits 10 n

/-- The number of bytes the text takes in UTF-8. -/
def utf8Size (text : Text) : Nat :=
  text.foldl (fun size c => size + c.utf8Size) 0

def joinWith (separator : Text) : List Text → Text
  | [] => []
  | [text] => text
  | text :: rest => text ++ separator ++ joinWith separator rest

/-- What stands behind `opening`, when the text starts with it. -/
def after? : Text → Text → Option Text
  | [], text => some text
  | _ :: _, [] => none
  | a :: opening, b :: text => if a = b then after? opening text else none

/-- The part of `whole` in front of its tail `rest`. -/
def consumed (whole rest : Text) : Text :=
  whole.take (whole.length - rest.length)

def dropEndWhile (p : Char → Bool) : Text → Text
  | [] => []
  | c :: rest =>
    match dropEndWhile p rest with
    | [] => if p c then [] else [c]
    | kept => c :: kept

/-- The text in front of the first `mark`, and the text behind it. -/
def cutAt? (mark : Char) : Text → Option (Text × Text)
  | [] => none
  | c :: rest =>
    if c = mark then some ([], rest) else (cutAt? mark rest).map fun cut => (c :: cut.1, cut.2)

/-- Puts a character in front of the first of several texts. -/
def consFirst (c : Char) : List Text → List Text
  | [] => [[c]]
  | first :: rest => (c :: first) :: rest

/-- The texts between the marks, empty ones included. -/
def splitOn (mark : Char) : Text → List Text
  | [] => [[]]
  | c :: rest => if c = mark then [] :: splitOn mark rest else consFirst c (splitOn mark rest)

/-- Code point order, a proper start of a text before the text. -/
def precedes : Text → Text → Bool
  | _, [] => false
  | [], _ :: _ => true
  | a :: s, b :: t => a.toNat < b.toNat || (a == b && precedes s t)

theorem length_of_after? {opening text rest : Text} (found : after? opening text = some rest) :
    text.length = opening.length + rest.length := by
  induction opening generalizing text with
  | nil => simp_all [after?]
  | cons a opening ih =>
    cases text with
    | nil => simp [after?] at found
    | cons b text =>
      simp only [after?] at found
      split at found
      · have := ih found
        simp only [List.length_cons]
        omega
      · simp at found

theorem eq_append_of_cutAt? {mark : Char} {text before rest : Text}
    (found : cutAt? mark text = some (before, rest)) : text = before ++ mark :: rest := by
  induction text generalizing before with
  | nil => simp [cutAt?] at found
  | cons c text ih =>
    simp only [cutAt?] at found
    split at found
    · next same => simp_all
    · simp only [Option.map_eq_some_iff, Prod.mk.injEq] at found
      obtain ⟨cut, inner, rfl, rfl⟩ := found
      simpa using ih inner

theorem length_of_cutAt? {mark : Char} {text before rest : Text}
    (found : cutAt? mark text = some (before, rest)) : rest.length < text.length := by
  simp only [eq_append_of_cutAt? found, List.length_append, List.length_cons]
  omega

/-! Character classes. `isBlank` is the White_Space property, `isSpace` the three characters that
may stand between the words of one line, `isControl` the two ranges of control characters. -/

/-- The White_Space property. -/
def isBlank (c : Char) : Bool :=
  let n := c.toNat
  (0x09 ≤ n && n ≤ 0x0d) || n == 0x20 || n == 0x85 || n == 0xa0 || n == 0x1680 ||
    (0x2000 ≤ n && n ≤ 0x200a) || n == 0x2028 || n == 0x2029 || n == 0x202f || n == 0x205f ||
    n == 0x3000

def isSpace (c : Char) : Bool :=
  c == ' ' || c == '\t' || c == '\r'

def isControl (c : Char) : Bool :=
  c.toNat < 0x20 || (0x7f ≤ c.toNat && c.toNat < 0xa0)

def trimStart (text : Text) : Text :=
  text.dropWhile isBlank

def trimEnd (text : Text) : Text :=
  dropEndWhile isBlank text

def trim (text : Text) : Text :=
  trimEnd (trimStart text)

/-- The text behind the spaces, tabs and carriage returns it starts with. -/
def skipSpaces (text : Text) : Text :=
  text.dropWhile isSpace

/-- The text without the slashes it ends in. -/
def dropEndSlashes (text : Text) : Text :=
  dropEndWhile (· == '/') text

theorem length_dropWhile_le (p : Char → Bool) (text : Text) :
    (text.dropWhile p).length ≤ text.length :=
  (List.dropWhile_sublist p).length_le

theorem length_skipSpaces_le (text : Text) : (skipSpaces text).length ≤ text.length :=
  length_dropWhile_le isSpace text

/-! Names: a letter or an underscore, then letters, digits and underscores, all of them ASCII. -/

def isNameStart (c : Char) : Bool :=
  c.isAlpha || c == '_'

def isNameChar (c : Char) : Bool :=
  c.isAlphanum || c == '_'

def isName : Text → Bool
  | [] => false
  | c :: rest => isNameStart c && rest.all isNameChar

/-- The longest name the text starts with, and what follows it. -/
def name? : Text → Option (Text × Text)
  | [] => none
  | c :: rest =>
    if isNameStart c then some (c :: rest.takeWhile isNameChar, rest.dropWhile isNameChar) else none

theorem name?_eq_append {text name rest : Text} (found : name? text = some (name, rest)) :
    text = name ++ rest := by
  cases text with
  | nil => simp [name?] at found
  | cons c text =>
    simp only [name?] at found
    split at found
    · simp only [Option.some.injEq, Prod.mk.injEq] at found
      simp [← found.1, ← found.2, List.takeWhile_append_dropWhile]
    · simp at found

theorem isName_of_name? {text name rest : Text} (found : name? text = some (name, rest)) :
    isName name = true := by
  cases text with
  | nil => simp [name?] at found
  | cons c text =>
    simp only [name?] at found
    split at found
    · next start =>
      simp only [Option.some.injEq, Prod.mk.injEq] at found
      simp [← found.1, isName, start]
    · simp at found

theorem length_of_name? {text name rest : Text} (found : name? text = some (name, rest)) :
    rest.length < text.length := by
  have whole := name?_eq_append found
  have word := isName_of_name? found
  cases name with
  | nil => simp [isName] at word
  | cons c name =>
    simp only [whole, List.cons_append, List.length_cons, List.length_append]
    omega

/-! Lines end at a line feed, and one carriage return right before it belongs to the ending. A text
that ends in a line feed has no further empty line; a carriage return elsewhere is an ordinary
character. -/

def lines : Text → List Text
  | [] => []
  | '\n' :: rest => [] :: lines rest
  | '\r' :: '\n' :: rest => [] :: lines rest
  | c :: rest => consFirst c (lines rest)

/-! Sets of names as strictly increasing lists. -/

/-- Adds a name at its place, once. -/
def insertSorted (name : Text) : List Text → List Text
  | [] => [name]
  | other :: rest =>
    if name = other then other :: rest
    else if name.precedes other then name :: other :: rest
    else other :: insertSorted name rest

/-- The distinct names of a list in increasing order. -/
def sortNames (names : List Text) : List Text :=
  names.foldl (fun sorted name => insertSorted name sorted) []

theorem mem_insertSorted {name other : Text} {names : List Text} :
    other ∈ insertSorted name names ↔ other = name ∨ other ∈ names := by
  induction names with
  | nil => simp [insertSorted]
  | cons first rest ih =>
    simp only [insertSorted]
    split
    · next same => subst same; simp
    · split <;> simp [ih, or_left_comm]

/-! The quoted form in which notes show a value. Quotes, backslashes and the common control
characters have short escapes, any other ASCII control character is written by its code point. -/

namespace Quoted

def escape (c : Char) : Text :=
  match c with
  | '"' => ['\\', '"']
  | '\\' => ['\\', '\\']
  | '\n' => ['\\', 'n']
  | '\r' => ['\\', 'r']
  | '\t' => ['\\', 't']
  | '\x00' => ['\\', '0']
  | c =>
    if c.toNat < 0x20 || c.toNat == 0x7f then
      "\\u\x7b".toList ++ Nat.toDigits 16 c.toNat ++ ['\x7d']
    else [c]

def encode (text : Text) : Text :=
  '"' :: text.flatMap escape ++ ['"']

end Quoted

end Text

end BmakeZig
