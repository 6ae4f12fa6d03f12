import BmakeZig.Source.Phrase

/-! Conditions. From the loosest to the tightest: alternatives, conjunctions, one comparison, any
number of negations, and a primary, which is a condition in brackets, a quoted string, an expansion,
a test for being defined or a name. Brackets leave no node of their own. -/
namespace BmakeZig.Source

/-- Goes on behind a left operand as long as the operator follows. `whole` is the text from the
start of the first operand on; `limit` bounds the number of operators. -/
def operands (line : Nat) (kind : Kind) (operator : Text) (operand : Reader) (whole : Text) :
    Nat → Node → Text → Option (Node × Text)
  | 0, left, rest => some (left, rest)
  | limit + 1, left, rest =>
    match Text.after? operator (Text.skipSpaces rest) with
    | none => some (left, Text.skipSpaces rest)
    | some behind =>
      match operand behind with
      | none => none
      | some (right, after) =>
        let node := Node.branch kind line (Text.trimEnd (Text.consumed whole after))
          [left, Node.token line operator, right]
        operands line kind operator operand whole limit node after

/-- Operands joined by an operator, to the left first. -/
def joined (line : Nat) (kind : Kind) (operator : Text) (operand : Reader) : Reader := fun text =>
  let whole := Text.skipSpaces text
  match operand whole with
  | none => none
  | some (left, after) => operands line kind operator operand whole (after.length + 1) left after

def comparison (line : Nat) (operand : Reader) : Reader := fun text =>
  let whole := Text.skipSpaces text
  match operand whole with
  | none => none
  | some (left, after) =>
    match Text.after? ['=', '='] (Text.skipSpaces after) with
    | none => some (left, Text.skipSpaces after)
    | some behind =>
      (operand behind).map fun right =>
        (Node.branch .eq line (Text.trimEnd (Text.consumed whole right.2))
          [left, Node.token line ['=', '='], right.1], right.2)

theorem length_behind_spaces {text rest : Text} {c : Char}
    (next : Text.skipSpaces text = c :: rest) : rest.length < text.length := by
  have skipped := Text.length_skipSpaces_le text
  simp only [next, List.length_cons] at skipped
  omega

def negation (line : Nat) (operand : Reader) (text : Text) : Option (Node × Text) :=
  match next : Text.skipSpaces text with
  | '!' :: behind =>
    have := length_behind_spaces next
    (negation line operand behind).map fun inner =>
      (Node.branch .not line (Text.trimEnd (Text.consumed ('!' :: behind) inner.2))
        [Node.token line ['!'], inner.1], inner.2)
  | whole => operand whole
termination_by text.length

/-- A name, or a test for being defined where an opening bracket follows the word for it. -/
def nameOrDefined (line : Nat) : Reader := fun text =>
  match Text.name? text with
  | none => none
  | some (name, after) =>
    if name = "defined".toList then
      match Text.skipSpaces after with
      | '(' :: inside =>
        match Text.name? (Text.skipSpaces inside) with
        | none => none
        | some (target, left) =>
          match Text.skipSpaces left with
          | ')' :: rest =>
            some (Node.branch .isDefined line (Text.consumed text rest)
              [Node.token line name, Node.token line ['('], Node.leaf .identifier line target,
                Node.token line [')']], rest)
          | _ => none
      | left => some (Node.leaf .identifier line name, left)
    else some (Node.leaf .identifier line name, after)

/-- A primary, given the reader for a condition in brackets. -/
def primary (line : Nat) (inner : Reader) : Reader := fun text =>
  match Text.skipSpaces text with
  | '(' :: inside =>
    match inner inside with
    | none => none
    | some (node, left) =>
      match Text.skipSpaces left with
      | ')' :: rest => some (node, rest)
      | _ => none
  | '"' :: inside =>
    (Text.cutAt? '"' inside).map fun cut =>
      (Node.leaf .string line ('"' :: cut.1 ++ ['"']), cut.2)
  | '$' :: inside => expansion line ('$' :: inside)
  | whole => nameOrDefined line whole

/-- A condition with at most `depth` brackets around any part of it. -/
def conditionWithin (line : Nat) : Nat → Reader
  | 0 => fun _ => none
  | depth + 1 =>
    joined line .or ['|', '|'] <|
      joined line .and ['&', '&'] <|
        comparison line (negation line (primary line (conditionWithin line depth)))

/-- A condition. The text has fewer brackets than characters, so none is too deep. -/
def condition (line : Nat) : Reader := fun text =>
  conditionWithin line (text.length + 1) text

end BmakeZig.Source
