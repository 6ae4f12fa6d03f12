import BmakeZig.Text.Basic

/-! A value is literal text with references in it. `split` cuts the written form into fragments and
`toText` writes fragments down again. Two dollar signs stand for one; a dollar sign that opens no
well-formed reference stands for itself, and reading goes on right behind it. -/
namespace BmakeZig

/-- The three ways a value refers to a variable, each with its own pair of brackets. -/
inductive Mode where
  /-- Round brackets: read when the emitted program runs. -/
  | recursive
  /-- Curly brackets: as `recursive`, without the slashes the value ends in. -/
  | stripping
  /-- Square brackets: replaced while the unit is being compiled. -/
  | immediate
deriving DecidableEq, Repr

namespace Mode

def opening : Mode → Char
  | .recursive => '('
  | .stripping => '\x7b'
  | .immediate => '['

def closing : Mode → Char
  | .recursive => ')'
  | .stripping => '\x7d'
  | .immediate => ']'

def ofOpening? (c : Char) : Option Mode :=
  if c = '(' then some .recursive
  else if c = '\x7b' then some .stripping
  else if c = '[' then some .immediate
  else none

theorem ofOpening?_opening (mode : Mode) : ofOpening? mode.opening = some mode := by
  cases mode <;> rfl

theorem opening_of_ofOpening? {c : Char} {mode : Mode} (found : ofOpening? c = some mode) :
    c = mode.opening := by
  unfold ofOpening? at found
  repeat' split at found
  all_goals simp_all [opening]
  all_goals simp [← found]

end Mode

inductive Fragment where
  | literal (text : Text)
  | reference (name : Text) (mode : Mode)
deriving DecidableEq, Repr

namespace Fragment

/-- The reference that the text behind a dollar sign spells, with what follows it. Blanks around the
name do not count. -/
def reference? : Text → Option ((Text × Mode) × Text)
  | [] => none
  | c :: inside => do
    let mode ← Mode.ofOpening? c
    let (content, rest) ← Text.cutAt? mode.closing inside
    let name := Text.trim content
    if Text.isName name then some ((name, mode), rest) else none

/-- Puts a literal character in front, joining it to a literal that already stands there. -/
def consLiteral (c : Char) : List Fragment → List Fragment
  | .literal text :: rest => .literal (c :: text) :: rest
  | fragments => .literal [c] :: fragments

theorem length_of_reference? {text rest : Text} {found : Text × Mode}
    (spelled : reference? text = some (found, rest)) : rest.length < text.length := by
  cases text with
  | nil => simp [reference?] at spelled
  | cons c inside =>
    simp only [reference?, Option.bind_eq_bind, Option.bind_eq_some_iff] at spelled
    obtain ⟨mode, _, cut, inner, named⟩ := spelled
    split at named
    · simp only [Option.some.injEq, Prod.mk.injEq] at named
      have shorter := Text.length_of_cutAt? inner
      simp only [← named.2, List.length_cons]
      omega
    · simp at named

def split : Text → List Fragment
  | [] => []
  | '$' :: '$' :: rest => consLiteral '$' (split rest)
  | '$' :: after =>
    match spelled : reference? after with
    | some ((name, mode), rest) =>
      have := length_of_reference? spelled
      .reference name mode :: split rest
    -- Only the dollar sign is literal: what follows it is looked at again.
    | none => consLiteral '$' (split after)
  | c :: rest => consLiteral c (split rest)
termination_by text => text.length

/-- The written form of one fragment: a literal has its dollar signs doubled. -/
def written : Fragment → Text
  | .literal text => text.flatMap fun c => if c = '$' then ['$', '$'] else [c]
  | .reference name mode => '$' :: mode.opening :: name ++ [mode.closing]

/-- Puts a fragment in front. An empty literal vanishes, and two literals become one. -/
def cons : Fragment → List Fragment → List Fragment
  | .literal [], rest => rest
  | .literal text, .literal more :: rest => .literal (text ++ more) :: rest
  | fragment, rest => fragment :: rest

/-- The fragments without empty literals and without neighbouring ones. -/
def merge (fragments : List Fragment) : List Fragment :=
  fragments.foldr cons []

def toText (fragments : List Fragment) : Text :=
  fragments.flatMap written

end Fragment

end BmakeZig
