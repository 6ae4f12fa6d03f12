import BmakeZig.Environment.Basic
import BmakeZig.Proofs.Zig.Reading
import BmakeZig.Zig.Program
import Mathlib.Data.List.Forall2

/-! The value of an emitted expression in a store. The reader takes the text of an expression apart:
string literals, the program's own variables, `std.mem.trimRight` of slashes, and `std.mem.concat`
of several expressions, nested to any depth. Each way of writing an expression yields what it was
written for. -/
namespace BmakeZig.Zig

/-- A literal or a variable of the program, which has to be declared. -/
def operand? (store : Table) (text : Text) : Option (Text × Text) :=
  match Text.after? "vars.".toList text with
  | some target => do
    let (name, rest) ← identifier? target
    let value ← store.get? name
    some (value, rest)
  | none => literal? text

/-- The values of the items up to the closing brace and bracket, put together. -/
def items? (item : Text → Option (Text × Text)) : Nat → Text → Option (Text × Text)
  | 0, _ => none
  | limit + 1, text => do
    let (value, rest) ← item text
    match Text.after? [',', ' '] rest with
    | some more => (items? item limit more).map fun others => (value ++ others.1, others.2)
    | none => (Text.after? " \x7d)".toList rest).map fun rest => (value, rest)

/-- What a call that puts texts together starts with. -/
def concatOpening : Text :=
  "try std.mem.concat(gpa, u8, &.\x7b ".toList

/-- What a call that takes slashes off the end starts with. -/
def trimOpening : Text :=
  "std.mem.trimRight(u8, ".toList

def trimClosing : Text :=
  ", \"/\")".toList

/-- The value of the expression the text starts with, and what follows it; nothing if calls are
nested deeper than `depth`. -/
def expression? (store : Table) : Nat → Text → Option (Text × Text)
  | 0, _ => none
  | depth + 1, text =>
    match Text.after? concatOpening text with
    | some inside => items? (expression? store depth) inside.length inside
    | none =>
      match Text.after? trimOpening text with
      | some inside => do
        let (value, rest) ← expression? store depth inside
        let rest ← Text.after? trimClosing rest
        some (Text.dropEndSlashes value, rest)
      | none => operand? store text

/-- The text is read for the value, whatever follows that does not go on with a name. -/
def Reads (reader : Text → Option (Text × Text)) (text value : Text) : Prop :=
  ∀ rest : Text, (∀ c ∈ rest.head?, Text.isNameChar c = false) →
    reader (text ++ rest) = some (value, rest)

/-- The expression has the value in the store, and is nested at most `level` deep. -/
def Yields (store : Table) (level : Nat) (text value : Text) : Prop :=
  ∀ depth, level ≤ depth → Reads (expression? store depth) text value

theorem stops_cons {c : Char} (other : Text.isNameChar c = false) (rest : Text) :
    ∀ d ∈ (c :: rest).head?, Text.isNameChar d = false := by
  simpa using other

variable {store : Table} {level limit : Nat} {text value : Text}

theorem Yields.mono {more : Nat} (yields : Yields store level text value) (le : level ≤ more) :
    Yields store more text value :=
  fun depth deep => yields depth (le.trans deep)

/-! One lemma for each form. -/

/-- Text that starts like neither call is an operand. -/
theorem expression?_operand (depth : Nat) {c : Char} (first : c ≠ 't' ∧ c ≠ 's') (rest : Text) :
    expression? store (depth + 1) (c :: rest) = operand? store (c :: rest) := by
  have concat : Text.after? concatOpening (c :: rest) = none :=
    if_neg (Ne.symm first.1)
  have trim : Text.after? trimOpening (c :: rest) = none :=
    if_neg (Ne.symm first.2)
  rw [expression?, concat]
  simp only [trim]

theorem yields_literal (store : Table) (text : Text) : Yields store 1 (literal text) text := by
  intro depth deep rest stops
  obtain ⟨depth, rfl⟩ := Nat.exists_eq_add_of_le' deep
  exact (expression?_operand depth (by decide) _).trans (literal?_literal text rest)

theorem yields_variable {name : Text} (found : store.get? name = some value) :
    Yields store 1 (variableNamed name) value := by
  intro depth deep rest stops
  obtain ⟨depth, rfl⟩ := Nat.exists_eq_add_of_le' deep
  have read : operand? store (variableNamed name ++ rest) = some (value, rest) := by
    rw [operand?, variableNamed, List.append_assoc, Text.after?_append]
    simp [identifier?_identifier name stops, found]
  exact (expression?_operand depth (by decide) _).trans read

theorem yields_withoutEndSlashes (yields : Yields store level text value) :
    Yields store (level + 1) (withoutEndSlashes text) (Text.dropEndSlashes value) := by
  intro depth deep rest stops
  obtain ⟨depth, rfl⟩ := Nat.exists_eq_add_of_le' (Nat.le_of_add_left_le deep)
  have inner := yields depth (by omega) (trimClosing ++ rest) (stops_cons (by decide) _)
  have concat : ∀ more, Text.after? concatOpening (trimOpening ++ more) = none := fun _ => rfl
  have whole : withoutEndSlashes text ++ rest = trimOpening ++ (text ++ (trimClosing ++ rest)) := by
    unfold withoutEndSlashes trimOpening trimClosing
    rw [List.append_assoc, List.append_assoc]
  rw [whole, expression?, concat]
  simp only [Text.after?_append, inner, Option.bind_eq_bind, Option.bind_some]

theorem items?_joined {item : Text → Option (Text × Text)} {parts values : List Text}
    (each : List.Forall₂ (Reads item) parts values) (filled : parts ≠ [])
    (enough : parts.length ≤ limit) (rest : Text) :
    items? item limit (Text.joinWith [',', ' '] parts ++ (" \x7d)".toList ++ rest)) =
      some (values.flatten, rest) := by
  induction each generalizing limit with
  | nil => exact absurd rfl filled
  | @cons part value parts values first others ih =>
    obtain ⟨limit, rfl⟩ := Nat.exists_eq_add_of_le' (Nat.le_of_add_left_le enough)
    cases others with
    | nil =>
      have last := first (" \x7d)".toList ++ rest) (stops_cons (by decide) _)
      have ends : Text.after? [',', ' '] (" \x7d)".toList ++ rest) = none := rfl
      simp only [Text.joinWith, items?, last, Option.bind_eq_bind, Option.bind_some, ends,
        Text.after?_append, Option.map_some, List.flatten_cons, List.flatten_nil, List.append_nil]
    | cons second others =>
      have later := ih (by simp) (by simpa using enough)
      have goesOn (more : Text) : item (part ++ ([',', ' '] ++ more)) = some (value, ',' :: ' ' :: more) :=
        first _ (stops_cons (by decide) _)
      rw [Text.joinWith, List.append_assoc, List.append_assoc, items?, goesOn]
      · simp only [Option.bind_eq_bind, Option.bind_some, Text.after?, if_true, later, Option.map_some,
          List.flatten_cons]
      · simp

/-- The separators alone are as long as the list of parts. -/
theorem length_le_joinWith (parts : List Text) :
    parts.length ≤ (Text.joinWith [',', ' '] parts).length + 1 := by
  induction parts with
  | nil => simp
  | cons part parts ih =>
    cases parts with
    | nil => simp
    | cons next parts =>
      rw [Text.joinWith]
      · simp only [List.length_append, List.length_cons] at ih ⊢
        omega
      · simp

theorem yields_concat {parts values : List Text}
    (each : List.Forall₂ (Yields store level) parts values) (filled : parts ≠ []) :
    Yields store (level + 1) (concat parts) values.flatten := by
  intro depth deep rest stops
  obtain ⟨depth, rfl⟩ := Nat.exists_eq_add_of_le' (Nat.le_of_add_left_le deep)
  have items : List.Forall₂ (Reads (expression? store depth)) parts values :=
    List.Forall₂.imp (fun _ _ yields => yields depth (by omega)) each
  -- The reader of items takes as many turns as there are characters.
  have enough : parts.length ≤
      (Text.joinWith [',', ' '] parts ++ (" \x7d)".toList ++ rest)).length := by
    have long := length_le_joinWith parts
    have closing : " \x7d)".toList.length = 3 := rfl
    simp only [List.length_append, closing]
    omega
  have whole : concat parts ++ rest = concatOpening ++
      (Text.joinWith [',', ' '] parts ++ (" \x7d)".toList ++ rest)) := by
    unfold concat concatOpening
    rw [List.append_assoc, List.append_assoc]
  rw [whole, expression?, Text.after?_append]
  exact items?_joined items filled enough rest

theorem yields_sequence {parts values : List Text}
    (each : List.Forall₂ (Yields store level) parts values) :
    Yields store (level + 1) (sequence parts) values.flatten := by
  cases each with
  | nil => exact (yields_literal store []).mono (by omega)
  | cons first others =>
    cases others with
    | nil => simpa [sequence] using first.mono (by omega)
    | cons second others => exact yields_concat (.cons first (.cons second others)) (by simp)

/-! No expression leaves its line. -/

theorem newline_not_mem_variableNamed (name : Text) : '\n' ∉ variableNamed name := by
  unfold variableNamed
  simp only [List.mem_append, newline_not_mem_identifier]
  decide

theorem newline_not_mem_processVariableOrEmpty (name : Text) : '\n' ∉ processVariableOrEmpty name := by
  unfold processVariableOrEmpty processVariable
  simp only [List.mem_append, newline_not_mem_literal]
  decide

theorem newline_not_mem_withoutEndSlashes (oneLine : '\n' ∉ text) : '\n' ∉ withoutEndSlashes text := by
  unfold withoutEndSlashes
  simp only [List.mem_append, oneLine]
  decide

theorem newline_not_mem_concat {parts : List Text} (each : ∀ part ∈ parts, '\n' ∉ part) :
    '\n' ∉ concat parts := by
  have joined : '\n' ∉ Text.joinWith [',', ' '] parts := Text.not_mem_joinWith (by decide) each
  unfold concat
  simp only [List.mem_append, joined]
  decide

theorem newline_not_mem_sequence {parts : List Text} (each : ∀ part ∈ parts, '\n' ∉ part) :
    '\n' ∉ sequence parts := by
  unfold sequence
  split
  · exact newline_not_mem_literal []
  · exact each _ (by simp)
  · exact newline_not_mem_concat each

end BmakeZig.Zig
