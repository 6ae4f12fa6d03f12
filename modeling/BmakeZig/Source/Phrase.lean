import BmakeZig.Text.Basic
import BmakeZig.Tree.Node

/-! Text with expansions in it, as it stands on the rest of a line. All readers here take the unread
text of one line and hand back a node with what they leave; `line` is the number of that line. -/
namespace BmakeZig.Source

abbrev Reader := Text → Option (Node × Text)

/-- Behind a name, spaces and one more character less is left. -/
theorem length_behind_name {text name after rest : Text} {c : Char}
    (found : Text.name? text = some (name, after)) (next : Text.skipSpaces after = c :: rest) :
    (Text.skipSpaces rest).length < text.length := by
  have shorter := Text.length_of_name? found
  have skipped := Text.length_skipSpaces_le after
  have again := Text.length_skipSpaces_le rest
  simp only [next, List.length_cons] at skipped
  omega

/-- Names with commas between them, and the text behind the spaces that follow. -/
def names (line : Nat) (text : Text) : Option (List Node × Text) :=
  match found : Text.name? text with
  | none => none
  | some (name, after) =>
    match next : Text.skipSpaces after with
    | ',' :: rest =>
      have := length_behind_name found next
      (names line (Text.skipSpaces rest)).map fun more =>
        (Node.leaf .identifier line name :: Node.token line [','] :: more.1, more.2)
    | left => some ([Node.leaf .identifier line name], left)
termination_by text.length

/-- One name, and the text behind the spaces that follow. -/
def oneName (line : Nat) (text : Text) : Option (List Node × Text) :=
  (Text.name? text).map fun found =>
    ([Node.leaf .identifier line found.1], Text.skipSpaces found.2)

/-- What stands between the brackets of an expansion: a name, or in square brackets also a modifier
with the names it applies to. -/
def expansionContent (line : Nat) (mode : Mode) (text : Text) : Option (List Node × Text) :=
  match mode, text with
  | .immediate, '@' :: after =>
    (Text.name? after).bind fun found =>
      (names line (Text.skipSpaces found.2)).map fun more =>
        (Node.leaf .expansionMod line ('@' :: found.1) :: more.1, more.2)
  | _, text => oneName line text

def expansion (line : Nat) : Reader
  | '$' :: c :: inside =>
    match Mode.ofOpening? c with
    | none => none
    | some mode =>
      match expansionContent line mode (Text.skipSpaces inside) with
      | some (content, closing :: rest) =>
        if closing = mode.closing then
          some (Node.branch (.expansion mode) line (Text.consumed ('$' :: c :: inside) rest)
            (Node.token line ['$', c] :: content ++ [Node.token line [closing]]), rest)
        else none
      | _ => none
  | _ => none

theorem length_of_names {line : Nat} {text left : Text} {nodes : List Node}
    (read : names line text = some (nodes, left)) : left.length ≤ text.length := by
  fun_induction names line text generalizing nodes left with
  | case1 => simp at read
  | case2 text name after found rest next shorter ih =>
    obtain ⟨⟨inner, last⟩, again, same⟩ := Option.map_eq_some_iff.1 read
    have deeper := ih again
    simp only [Prod.mk.injEq] at same
    rw [← same.2]
    omega
  | case3 text name after found =>
    have shorter := Text.length_of_name? found
    have skipped := Text.length_skipSpaces_le after
    simp only [Option.some.injEq, Prod.mk.injEq] at read
    rw [← read.2]
    omega

theorem length_of_oneName {line : Nat} {text left : Text} {nodes : List Node}
    (read : oneName line text = some (nodes, left)) : left.length ≤ text.length := by
  obtain ⟨found, named, same⟩ := Option.map_eq_some_iff.1 read
  have shorter := Text.length_of_name? named
  have skipped := Text.length_skipSpaces_le found.2
  simp only [Prod.mk.injEq] at same
  rw [← same.2]
  omega

theorem length_of_expansionContent {line : Nat} {mode : Mode} {text left : Text} {nodes : List Node}
    (read : expansionContent line mode text = some (nodes, left)) : left.length ≤ text.length := by
  unfold expansionContent at read
  split at read
  · obtain ⟨found, named, more⟩ := Option.bind_eq_some_iff.1 read
    obtain ⟨inner, listed, same⟩ := Option.map_eq_some_iff.1 more
    have shorter := Text.length_of_name? named
    have skipped := Text.length_skipSpaces_le found.2
    have last := length_of_names listed
    simp only [Prod.mk.injEq] at same
    simp only [List.length_cons, ← same.2]
    omega
  · exact length_of_oneName read

theorem length_of_expansion {line : Nat} {text rest : Text} {node : Node}
    (read : expansion line text = some (node, rest)) : rest.length < text.length := by
  unfold expansion at read
  split at read
  · next c inside =>
    split at read
    · simp at read
    · next mode _ =>
      split at read
      · next content closing after inner =>
        split at read
        · have shorter := length_of_expansionContent inner
          have skipped := Text.length_skipSpaces_le inside
          simp only [Option.some.injEq, Prod.mk.injEq] at read
          simp only [← read.2, List.length_cons] at *
          omega
        · simp at read
      · simp at read
  · simp at read

/-- Puts a character in front as literal text, joining it to a literal that already stands there. -/
def consLiteral (line : Nat) (c : Char) : List Node → List Node
  | ⟨.literal, _, _, text, _⟩ :: rest => Node.leaf .literal line (c :: text) :: rest
  | nodes => Node.leaf .literal line [c] :: nodes

/-- The literal runs and expansions of a text. Two dollar signs are literal and hide each other. -/
def pieces (line : Nat) : Text → List Node
  | [] => []
  | '$' :: '$' :: rest => consLiteral line '$' (consLiteral line '$' (pieces line rest))
  | '$' :: after =>
    match read : expansion line ('$' :: after) with
    | some (node, rest) =>
      have : rest.length < after.length + 1 := length_of_expansion read
      node :: pieces line rest
    -- Only the dollar sign is literal: what follows it is looked at again.
    | none => consLiteral line '$' (pieces line after)
  | c :: rest => consLiteral line c (pieces line rest)
termination_by text => text.length

/-- The rest of a line without the blanks it ends in, as a node with its pieces. -/
def phrase (kind : Kind) (line : Nat) (text : Text) : Node :=
  let kept := Text.trimEnd text
  Node.branch kind line kept (pieces line kept)

/-- Whether nothing but spaces and a comment is left of a line. -/
def atLineEnd (text : Text) : Bool :=
  match Text.skipSpaces text with
  | [] => true
  | c :: _ => c == '#'

end BmakeZig.Source
