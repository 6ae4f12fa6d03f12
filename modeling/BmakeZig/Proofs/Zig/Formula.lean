import BmakeZig.Text.Basic

/-! Boolean conditions of the emitted program, read back as the language binds them: brackets, then
`!`, then `and`, then `or`, the last two from the left. What a condition tests stays opaque: an
operand is one sign of the text, whatever it is spelled like. The main statement is that signs made
of operands, negations, conjunctions and alternatives, with brackets where one binds looser than its
place allows, are read as a formula of the same operands and the same truth (`Reads.ofSigns?`). -/
namespace BmakeZig.Zig

inductive Formula (α : Type) where
  | operand (label : α)
  | not (inner : Formula α)
  | and (left right : Formula α)
  | or (left right : Formula α)
deriving DecidableEq, Repr

namespace Formula

variable {α β : Type}

/-- The operands from left to right. -/
def operands : Formula α → List α
  | operand label => [label]
  | not inner => inner.operands
  | and left right | or left right => left.operands ++ right.operands

/-- Whether the formula holds when its operands have, from left to right, the truth values that stand
in `truth` from place `first` on. -/
def holds (truth : Nat → Bool) (first : Nat) : Formula α → Bool
  | operand _ => truth first
  | not inner => !inner.holds truth first
  | and left right => left.holds truth first && right.holds truth (first + left.operands.length)
  | or left right => left.holds truth first || right.holds truth (first + left.operands.length)

def map (f : α → β) : Formula α → Formula β
  | operand label => operand (f label)
  | not inner => not (inner.map f)
  | and left right => and (left.map f) (right.map f)
  | or left right => or (left.map f) (right.map f)

theorem operands_map (f : α → β) (formula : Formula α) :
    (formula.map f).operands = formula.operands.map f := by
  induction formula with
  | operand label => rfl
  | not inner ih => exact ih
  | and left right ihLeft ihRight => simp [map, operands, ihLeft, ihRight]
  | or left right ihLeft ihRight => simp [map, operands, ihLeft, ihRight]

theorem holds_map (f : α → β) (formula : Formula α) (truth : Nat → Bool) (first : Nat) :
    (formula.map f).holds truth first = formula.holds truth first := by
  induction formula generalizing first with
  | operand label => rfl
  | not inner ih => simp [map, holds, ih]
  | and left right ihLeft ihRight => simp [map, holds, operands_map, ihLeft, ihRight]
  | or left right ihLeft ihRight => simp [map, holds, operands_map, ihLeft, ihRight]

/-- The same operands in the same order, and true for the same truth values of them. -/
structure Same (formula other : Formula α) : Prop where
  operands : formula.operands = other.operands
  holds : ∀ truth first, formula.holds truth first = other.holds truth first

namespace Same

variable {f g h left right : Formula α}

@[refl] theorem refl (f : Formula α) : Same f f :=
  ⟨rfl, fun _ _ => rfl⟩

theorem trans (first : Same f g) (second : Same g h) : Same f h :=
  ⟨first.operands.trans second.operands, fun truth start =>
    (first.holds truth start).trans (second.holds truth start)⟩

theorem not (same : Same f g) : Same f.not g.not :=
  ⟨same.operands, fun truth first => by simp [Formula.holds, same.holds]⟩

theorem and (same : Same f g) (others : Same left right) : Same (f.and left) (g.and right) :=
  ⟨by simp [Formula.operands, same.operands, others.operands],
    fun truth first => by simp [Formula.holds, same.holds, same.operands, others.holds]⟩

theorem or (same : Same f g) (others : Same left right) : Same (f.or left) (g.or right) :=
  ⟨by simp [Formula.operands, same.operands, others.operands],
    fun truth first => by simp [Formula.holds, same.holds, same.operands, others.holds]⟩

theorem and_assoc (f g h : Formula α) : Same ((f.and g).and h) (f.and (g.and h)) :=
  ⟨by simp [Formula.operands],
    fun truth first => by simp [Formula.holds, Formula.operands, Bool.and_assoc, Nat.add_assoc]⟩

theorem or_assoc (f g h : Formula α) : Same ((f.or g).or h) (f.or (g.or h)) :=
  ⟨by simp [Formula.operands],
    fun truth first => by simp [Formula.holds, Formula.operands, Bool.or_assoc, Nat.add_assoc]⟩

end Same

end Formula

/-! Signs, and the tokens they are cut into. -/

/-- A character of a condition, or an operand as a whole. -/
inductive Sign (α : Type) where
  | char (c : Char)
  | operand (label : α)
deriving DecidableEq, Repr

inductive Token (α : Type) where
  | operand (label : α)
  | opening
  | closing
  | not
  | and
  | or
deriving DecidableEq, Repr

namespace Sign

variable {α : Type}

def ofText (text : Text) : List (Sign α) :=
  text.map char

/-- The text that signs spell, given that of the operands. -/
def spell (spelling : α → Text) (signs : List (Sign α)) : Text :=
  signs.flatMap fun sign =>
    match sign with
    | char c => [c]
    | operand label => spelling label

@[simp] theorem spell_ofText (spelling : α → Text) (text : Text) :
    spell spelling (ofText text) = text := by
  simp [spell, ofText, List.flatMap_map]

@[simp] theorem spell_append (spelling : α → Text) (left right : List (Sign α)) :
    spell spelling (left ++ right) = spell spelling left ++ spell spelling right :=
  List.flatMap_append

/-- Whether a word ends in front of the signs. -/
def endsWord : List (Sign α) → Bool
  | char c :: _ => !Text.isNameChar c
  | operand _ :: _ => false
  | [] => true

def wordTokens? (word : Text) : Option (List (Token α)) :=
  if word.isEmpty then some []
  else if word = "and".toList then some [.and]
  else if word = "or".toList then some [.or]
  else none

def markTokens? : Char → Option (List (Token α))
  | '(' => some [.opening]
  | ')' => some [.closing]
  | '!' => some [.not]
  | ' ' => some []
  | _ => none

/-- The tokens of the signs behind a word that has been read in part. An operand does not touch a word
or another operand. -/
def tokens? (word : Text) : List (Sign α) → Option (List (Token α))
  | [] => wordTokens? word
  | char c :: rest =>
    if Text.isNameChar c then tokens? (word ++ [c]) rest
    else do
      let ended ← wordTokens? word
      let mark ← markTokens? c
      return ended ++ mark ++ (← tokens? [] rest)
  | operand label :: rest =>
    if word.isEmpty && endsWord rest then return .operand label :: (← tokens? [] rest) else none

/-- The signs are cut into these tokens, whatever follows behind the last word. -/
def CutInto (signs : List (Sign α)) (tokens : List (Token α)) : Prop :=
  ∀ rest, endsWord rest = true → tokens? [] (signs ++ rest) = (tokens? [] rest).map (tokens ++ ·)

theorem tokens?_mark (c : Char) {mark : List (Token α)} (other : Text.isNameChar c = false)
    (found : markTokens? c = some mark) (rest : List (Sign α)) :
    tokens? [] (char c :: rest) = (tokens? [] rest).map (mark ++ ·) := by
  rw [tokens?, if_neg (by simp [other]), found]
  cases tokens? [] rest <;> rfl

theorem tokens?_letters {letters : Text} (named : letters.all Text.isNameChar = true) (word : Text)
    (rest : List (Sign α)) :
    tokens? word (ofText letters ++ rest) = tokens? (word ++ letters) rest := by
  induction letters generalizing word with
  | nil => simp [ofText]
  | cons c letters ih =>
    rw [List.all_cons, Bool.and_eq_true] at named
    have later := ih named.2 (word ++ [c])
    simp only [ofText, List.map_cons, List.cons_append, tokens?, named.1, if_true] at later ⊢
    rw [later, List.append_assoc, List.singleton_append]

/-- A word between blanks. -/
def spaced (word : Text) : Text :=
  ' ' :: word ++ [' ']

theorem tokens?_spaced {word : Text} {token : Token α} (named : word.all Text.isNameChar = true)
    (means : wordTokens? word = some [token]) (rest : List (Sign α)) :
    tokens? [] (ofText (spaced word) ++ rest) = (tokens? [] rest).map (token :: ·) := by
  have blank : tokens? word (char ' ' :: rest) = (tokens? [] rest).map (token :: ·) := by
    rw [tokens?, if_neg (by decide), means]
    cases tokens? [] rest <;> rfl
  have split : ofText (spaced word) ++ rest = char ' ' :: (ofText word ++ char ' ' :: rest) := by
    simp [ofText, spaced]
  rw [split, tokens?_mark ' ' rfl rfl, tokens?_letters named, List.nil_append, blank]
  cases tokens? [] rest <;> rfl

namespace CutInto

variable {signs others : List (Sign α)} {tokens more : List (Token α)}

theorem operand (label : α) : CutInto [.operand label] [.operand label] := by
  intro rest ends
  rw [List.singleton_append, tokens?, ends]
  cases tokens? [] rest <;> rfl

theorem negated (cut : CutInto signs tokens) : CutInto (ofText ['!'] ++ signs) (.not :: tokens) := by
  intro rest ends
  rw [List.append_assoc]
  have mark := tokens?_mark '!' rfl rfl (signs ++ rest)
  rw [show ofText ['!'] ++ (signs ++ rest) = char '!' :: (signs ++ rest) from rfl, mark,
    cut rest ends]
  cases tokens? [] rest <;> rfl

theorem bracketed (cut : CutInto signs tokens) :
    CutInto (ofText ['('] ++ signs ++ ofText [')']) (.opening :: tokens ++ [.closing]) := by
  intro rest ends
  have split : ofText ['('] ++ signs ++ ofText [')'] ++ rest =
      char '(' :: (signs ++ char ')' :: rest) := by
    simp [ofText]
  rw [split, tokens?_mark '(' rfl rfl, cut _ rfl, tokens?_mark ')' rfl rfl]
  cases tokens? [] rest <;> simp

theorem joined {word : Text} {token : Token α} (named : word.all Text.isNameChar = true)
    (means : wordTokens? word = some [token]) (front : CutInto signs tokens)
    (back : CutInto others more) :
    CutInto (signs ++ ofText (spaced word) ++ others) (tokens ++ token :: more) := by
  intro rest ends
  rw [List.append_assoc, List.append_assoc, front _ rfl, tokens?_spaced named means,
    back rest ends]
  cases tokens? [] rest <;> simp

end CutInto

end Sign

/-! The reader of tokens. -/

namespace Formula

variable {α : Type}

/-- What has been read of one bracket in front of the operand at hand: the alternatives and the
conjuncts that are complete, and the negations that wait for the operand. -/
structure Frame (α : Type) where
  alternatives : Option (Formula α) := none
  conjuncts : Option (Formula α) := none
  negations : Nat := 0

/-- The operand that has just been read, if any, the bracket it stands in, and those around it. -/
structure Reading (α : Type) where
  value : Option (Formula α) := none
  frame : Frame α := {}
  outer : List (Frame α) := []

/-- Joins on the right of what there is. -/
def joined (join : Formula α → Formula α → Formula α) (before : Option (Formula α))
    (value : Formula α) : Formula α :=
  match before with
  | none => value
  | some before => join before value

def negated : Nat → Formula α → Formula α
  | 0, value => value
  | count + 1, value => negated count (.not value)

/-- All that a bracket holds, once its last operand is read. -/
def Frame.whole (frame : Frame α) (value : Formula α) : Formula α :=
  joined .or frame.alternatives (joined .and frame.conjuncts value)

/-- The waiting negations apply to the operand before anything else does. -/
def Frame.take (frame : Frame α) (outer : List (Frame α)) (value : Formula α) : Reading α :=
  ⟨some (negated frame.negations value), { frame with negations := 0 }, outer⟩

def Reading.step : Reading α → Token α → Option (Reading α)
  | ⟨none, frame, outer⟩, .operand label => some (frame.take outer (.operand label))
  | ⟨none, frame, outer⟩, .not => some ⟨none, { frame with negations := frame.negations + 1 }, outer⟩
  | ⟨none, frame, outer⟩, .opening => some ⟨none, {}, frame :: outer⟩
  | ⟨some value, inner, frame :: outer⟩, .closing => some (frame.take outer (inner.whole value))
  | ⟨some value, frame, outer⟩, .and =>
    some ⟨none, { frame with conjuncts := some (joined .and frame.conjuncts value) }, outer⟩
  | ⟨some value, frame, outer⟩, .or =>
    some ⟨none, { alternatives := some (frame.whole value) }, outer⟩
  | _, _ => none

def Reading.run (reading : Reading α) (tokens : List (Token α)) : Option (Reading α) :=
  tokens.foldlM Reading.step reading

def Reading.result? : Reading α → Option (Formula α)
  | ⟨some value, frame, []⟩ => some (frame.whole value)
  | _ => none

/-- The formula that signs are read as. -/
def ofSigns? (signs : List (Sign α)) : Option (Formula α) := do
  let tokens ← Sign.tokens? [] signs
  let reading ← Reading.run {} tokens
  reading.result?

theorem run_append (reading : Reading α) (left right : List (Token α)) :
    reading.run (left ++ right) = (reading.run left).bind (·.run right) :=
  List.foldlM_append

theorem run_cons (reading : Reading α) (token : Token α) (rest : List (Token α)) :
    reading.run (token :: rest) = (reading.step token).bind (·.run rest) :=
  rfl

/-! How tightly tokens hold together, and what reading them comes to in any surroundings that may
stand around tokens of that tightness. -/

inductive Level where
  | tight
  | conjuncts
  | alternatives
deriving DecidableEq, Repr

/-- The tokens are read as the formula, up to the way its operators associate. -/
def Reads (tokens : List (Token α)) (formula : Formula α) : Level → Prop
  | .tight => ∀ frame outer, ∃ value, Same value formula ∧
      Reading.run ⟨none, frame, outer⟩ tokens = some (frame.take outer value)
  | .conjuncts => ∀ alternatives before outer, ∃ conjuncts value,
      Same (joined .and conjuncts value) (joined .and before formula) ∧
      Reading.run ⟨none, ⟨alternatives, before, 0⟩, outer⟩ tokens =
        some ⟨some value, ⟨alternatives, conjuncts, 0⟩, outer⟩
  | .alternatives => ∀ before outer, ∃ frame value,
      Same (frame.whole value) (joined .or before formula) ∧
      Reading.run ⟨none, ⟨before, none, 0⟩, outer⟩ tokens = some ⟨some value, frame, outer⟩

namespace Same

variable {join : Formula α → Formula α → Formula α} {f g : Formula α}

theorem joined (congr : ∀ {f g left right}, Same f g → Same left right →
      Same (join f left) (join g right)) (before : Option (Formula α)) (same : Same f g) :
    Same (Formula.joined join before f) (Formula.joined join before g) := by
  cases before with
  | none => exact same
  | some before => exact congr (refl before) same

theorem joined_assoc (assoc : ∀ f g h, Same (join (join f g) h) (join f (join g h)))
    (before : Option (Formula α)) (f g : Formula α) :
    Same (join (Formula.joined join before f) g) (Formula.joined join before (join f g)) := by
  cases before with
  | none => exact refl _
  | some before => exact assoc before f g

end Same

namespace Reads

variable {tokens more : List (Token α)} {f g : Formula α} {level : Level}

theorem operand (label : α) : Reads [.operand label] (.operand label) .tight :=
  fun _ _ => ⟨.operand label, .refl _, rfl⟩

theorem not (reads : Reads tokens f .tight) : Reads (.not :: tokens) f.not .tight := by
  intro frame outer
  obtain ⟨value, same, run⟩ := reads { frame with negations := frame.negations + 1 } outer
  exact ⟨value.not, same.not, run⟩

theorem bracketed (reads : Reads tokens f .alternatives) :
    Reads (.opening :: tokens ++ [.closing]) f .tight := by
  intro frame outer
  obtain ⟨inner, value, same, run⟩ := reads none (frame :: outer)
  refine ⟨inner.whole value, same, ?_⟩
  rw [List.cons_append, run_cons, Reading.step, Option.bind_some, run_append, run]
  rfl

theorem conjuncts (reads : Reads tokens f .tight) : Reads tokens f .conjuncts := by
  intro alternatives before outer
  obtain ⟨value, same, run⟩ := reads ⟨alternatives, before, 0⟩ outer
  exact ⟨before, value, same.joined Same.and before, run⟩

theorem alternatives (reads : Reads tokens f level) : Reads tokens f .alternatives := by
  have loosened (reads : Reads tokens f .conjuncts) : Reads tokens f .alternatives := by
    intro before outer
    obtain ⟨conjuncts, value, same, run⟩ := reads before none outer
    exact ⟨⟨before, conjuncts, 0⟩, value, same.joined Same.or before, run⟩
  cases level with
  | tight => exact loosened reads.conjuncts
  | conjuncts => exact loosened reads
  | alternatives => exact reads

theorem and (left : Reads tokens f .conjuncts) (right : Reads more g .conjuncts) :
    Reads (tokens ++ .and :: more) (f.and g) .conjuncts := by
  intro alternatives before outer
  obtain ⟨between, first, sameFirst, runFirst⟩ := left alternatives before outer
  obtain ⟨conjuncts, value, same, run⟩ := right alternatives (some (joined .and between first)) outer
  refine ⟨conjuncts, value, ?_, ?_⟩
  · exact (same.trans (sameFirst.and (.refl g))).trans (Same.joined_assoc Same.and_assoc before f g)
  · rw [run_append, runFirst, Option.bind_some, run_cons, Reading.step, Option.bind_some]
    exact run

theorem or (left : Reads tokens f .alternatives) (right : Reads more g .alternatives) :
    Reads (tokens ++ .or :: more) (f.or g) .alternatives := by
  intro before outer
  obtain ⟨between, first, sameFirst, runFirst⟩ := left before outer
  obtain ⟨frame, value, same, run⟩ := right (some (between.whole first)) outer
  refine ⟨frame, value, ?_, ?_⟩
  · exact (same.trans (sameFirst.or (.refl g))).trans (Same.joined_assoc Same.or_assoc before f g)
  · rw [run_append, runFirst, Option.bind_some, run_cons, Reading.step, Option.bind_some]
    exact run

/-- What is read at some level in any surroundings is read the same on its own. -/
theorem ofSigns? {signs : List (Sign α)} (cut : Sign.CutInto signs tokens)
    (reads : Reads tokens f level) : ∃ read, Formula.ofSigns? signs = some read ∧ Same read f := by
  obtain ⟨frame, value, same, run⟩ := reads.alternatives none []
  have tokenized : Sign.tokens? [] signs = some tokens := by
    have empty : Sign.tokens? [] ([] : List (Sign α)) = some [] := rfl
    have whole := cut [] rfl
    rwa [List.append_nil, empty, Option.map_some, List.append_nil] at whole
  refine ⟨frame.whole value, ?_, same⟩
  rw [Formula.ofSigns?, tokenized]
  change (Reading.run {} tokens).bind _ = _
  rw [run]
  rfl

end Reads

/-- Negations bind closest, then conjunctions, which come in from the left. -/
example : Formula.ofSigns? (.char '!' :: .operand 1 :: Sign.ofText " or ".toList ++
    .operand 2 :: Sign.ofText " and ".toList ++ .operand 3 :: Sign.ofText " and ".toList ++
    [.operand 4]) =
    some (.or (.not (.operand 1)) (.and (.and (.operand 2) (.operand 3)) (.operand 4))) := by
  decide

end Formula

end BmakeZig.Zig
