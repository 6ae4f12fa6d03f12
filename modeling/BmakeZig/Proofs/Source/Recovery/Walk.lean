import BmakeZig.Proofs.Source.Recovery.Balance

/-! What a recovery counts on its way through what is read of a source. Every block that is read opens one
block and closes one, and so does nothing else but the commands of a rule, which are counted line by line
like any other text. A walk through the nodes that were read says how many blocks are counted as open
behind them, or that none is left on the way. -/
namespace BmakeZig

namespace Source

/-- The blocks that are left open, if any is. -/
def remaining (depth : Nat) : Option Nat :=
  if depth = 0 then none else some depth

end Source

mutual

/-- The blocks that are open behind a node, when `depth` are open before it and a command with some text
leaves `command` of them. There is no number once all of them are closed. -/
def Node.walk (command : Nat → Text → Nat) : Node → Nat → Option Nat
  | ⟨kind, _, _, text, children⟩, depth =>
    match kind with
    | .buildCommand => Source.remaining (command depth text)
    | .conditional =>
      (Node.walks command children (depth + 1)).bind fun inner => Source.remaining (inner - 1)
    | .body | .elifClause | .elseClause | .rule | .ruleBody => Node.walks command children depth
    | _ => some depth

def Node.walks (command : Nat → Text → Nat) : List Node → Nat → Option Nat
  | [], depth => some depth
  | node :: rest, depth => (node.walk command depth).bind (Node.walks command rest)

end

namespace Node

/-- Whether a walk passes the node over. -/
def isIdle (node : Node) : Bool :=
  match node.kind with
  | .buildCommand | .conditional | .body | .elifClause | .elseClause | .rule | .ruleBody => false
  | _ => true

variable {command : Nat → Text → Nat} {node : Node}

theorem walk_idle (idle : node.isIdle = true) (depth : Nat) : node.walk command depth = some depth := by
  obtain ⟨kind, named, line, text, children⟩ := node
  cases kind <;> first | rfl | cases idle

theorem walks_idle {nodes : List Node} (idle : ∀ node ∈ nodes, node.isIdle = true) (depth : Nat) :
    walks command nodes depth = some depth := by
  induction nodes with
  | nil => rfl
  | cons node nodes ih =>
    rw [walks, walk_idle (idle node List.mem_cons_self), Option.bind_some]
    exact ih fun other member => idle other (List.mem_cons_of_mem _ member)

theorem walks_append (left right : List Node) (depth : Nat) :
    walks command (left ++ right) depth = (walks command left depth).bind (walks command right) := by
  induction left generalizing depth with
  | nil => rfl
  | cons node left ih =>
    rw [List.cons_append, walks, walks, Option.bind_assoc]
    exact congrArg _ (funext ih)

theorem walks_singleton (node : Node) (depth : Nat) :
    walks command [node] depth = node.walk command depth := by
  rw [walks]
  exact Option.bind_fun_some _

/-! Where commands count for nothing, a walk comes back to where it started. -/

mutual

theorem walk_still : ∀ (node : Node) {depth : Nat}, depth ≠ 0 →
    node.walk (fun depth _ => depth) depth = some depth
  | ⟨kind, named, line, text, children⟩, depth, started => by
    have inside := fun {depth : Nat} (started : depth ≠ 0) => walks_still children started
    cases kind
    case buildCommand => simp [walk, Source.remaining, started]
    case conditional => simp [walk, inside, Source.remaining, started]
    all_goals first | rfl | exact inside started

theorem walks_still : ∀ (nodes : List Node) {depth : Nat}, depth ≠ 0 →
    walks (fun depth _ => depth) nodes depth = some depth
  | [], _, _ => rfl
  | node :: rest, depth, started => by
    rw [walks, walk_still node started, Option.bind_some]
    exact walks_still rest started

end

end Node

namespace Source

variable {c middle stop : Cursor} {count count' : Nat → Option Nat} {command : Nat → Text → Nat}
  {body : BodyReader}

theorem Cursor.Moves.later {text : Text} (moves : c.Moves text stop) :
    stop.rest.length ≤ c.rest.length := by
  simp [moves.rest]

theorem Cursor.moves_onward (c : Cursor) : ∃ text, c.Moves text c.nextLine := by
  obtain ⟨_, moves⟩ := c.moves_nextLine
  exact ⟨_, moves⟩

/-- Between the two places, a recovery that counts any block as open at the first one counts as many as the
count says at the second one. Where that says none, the recovery does not come as far. -/
structure Follows (c stop : Cursor) (count : Nat → Option Nat) : Prop where
  moves : ∃ text, c.Moves text stop
  goes : ∀ depth, depth ≠ 0 → ∀ left, count depth = some left →
    left ≠ 0 ∧ skipBlock depth c = skipBlock left stop
  ends : ∀ depth, depth ≠ 0 → count depth = none → stop.rest.length ≤ (skipBlock depth c).rest.length

namespace Follows

theorem later (follows : Follows c stop count) : stop.rest.length ≤ c.rest.length := by
  obtain ⟨_, moves⟩ := follows.moves
  exact moves.later

theorem congr (follows : Follows c stop count) (same : ∀ depth, depth ≠ 0 → count depth = count' depth) :
    Follows c stop count' where
  moves := follows.moves
  goes depth started left found := follows.goes depth started left ((same depth started).trans found)
  ends depth started none := follows.ends depth started ((same depth started).trans none)

theorem trans (first : Follows c middle count) (second : Follows middle stop count') :
    Follows c stop fun depth => (count depth).bind count' where
  moves := by
    obtain ⟨_, before⟩ := first.moves
    obtain ⟨_, behind⟩ := second.moves
    exact ⟨_, before.trans behind⟩
  goes depth started left found := by
    obtain ⟨between, counted, further⟩ := Option.bind_eq_some_iff.1 found
    obtain ⟨some_left, same⟩ := first.goes depth started between counted
    obtain ⟨still, rest⟩ := second.goes between some_left left further
    exact ⟨still, same.trans rest⟩
  ends depth started none := by
    cases counted : count depth with
    | none => exact second.later.trans (first.ends depth started counted)
    | some between =>
      obtain ⟨some_left, same⟩ := first.goes depth started between counted
      rw [same]
      exact second.ends between some_left (by simpa [counted] using none)

theorem of_balanced (balanced : Balanced c stop) (moves : ∃ text, c.Moves text stop) :
    Follows c stop some where
  moves := moves
  goes depth started left found := by
    obtain rfl := Option.some.inj found
    exact ⟨started, balanced depth started⟩
  ends _ _ none := nomatch none

theorem balanced (follows : Follows c stop count) (still : ∀ depth, depth ≠ 0 → count depth = some depth) :
    Balanced c stop :=
  fun depth started => (follows.goes depth started depth (still depth started)).2

end Follows

/-! A line, and the lines of a rule. -/

theorem Cursor.length_nextLine_le_below (c : Cursor) : c.nextLine.rest.length ≤ c.below.length := by
  unfold Cursor.nextLine
  split
  · simp
  · next found => simp [found]

theorem follows_nextLine (c : Cursor) :
    Follows c c.nextLine fun depth => remaining (depthAfter depth c.here) where
  moves := c.moves_onward
  goes depth started left counted := by
    unfold remaining at counted
    split at counted
    · cases counted
    · next stillOpen =>
      obtain rfl := Option.some.inj counted
      exact ⟨stillOpen, skipBlock_next stillOpen⟩
  ends depth started none := by
    unfold remaining at none
    split at none
    · next closed =>
      rw [skipBlock_closed closed]
      exact c.length_nextLine_le_below
    · cases none

theorem trimStart_append_blanks {blanks : Text} (all : ∀ d ∈ blanks, Text.isBlank d = true) (text : Text) :
    Text.trimStart (text ++ blanks) = [] ∧ Text.trimStart text = [] ∨
      Text.trimStart text ≠ [] ∧ Text.trimStart (text ++ blanks) = Text.trimStart text ++ blanks := by
  rw [Text.trimStart, Text.trimStart, List.dropWhile_append]
  cases start : text.dropWhile Text.isBlank with
  | nil => exact .inl ⟨List.dropWhile_eq_nil_iff.2 all, rfl⟩
  | cons d rest => exact .inr ⟨by simp, rfl⟩

/-- Blanks around a line do not count. -/
theorem depthAfter_append_blanks {blanks : Text} (all : ∀ d ∈ blanks, Text.isBlank d = true)
    (depth : Nat) (text : Text) : depthAfter depth (text ++ blanks) = depthAfter depth text := by
  have stops : ∀ d ∈ blanks.head?, Text.isNameChar d = false := by
    intro d first
    have blank := all d (List.mem_of_mem_head? first)
    by_contra named
    rw [Bool.not_eq_false] at named
    simp [Text.isBlank_of_isNameChar named] at blank
  unfold depthAfter
  rcases trimStart_append_blanks all text with ⟨nothing, none⟩ | ⟨filled, whole⟩
  · rw [nothing, none]
  · rw [whole, Directive.at?_append stops filled]

theorem depthAfter_trimmed (depth : Nat) (here : Text) :
    depthAfter depth (Text.trimEnd (Text.skipSpaces here)) = depthAfter depth here := by
  obtain ⟨blanks, split, all, -⟩ := Text.trimEnd_split (Text.skipSpaces here)
  obtain ⟨lead, spaces, whole⟩ := Text.skipSpaces_lead here
  have front : Text.trimStart here = Text.trimStart (Text.skipSpaces here) := by
    conv_lhs => rw [whole]
    exact List.dropWhile_append_of_pos fun d member => Text.isBlank_of_isSpace (spaces d member)
  calc depthAfter depth (Text.trimEnd (Text.skipSpaces here))
      = depthAfter depth (Text.skipSpaces here) := by
        conv_rhs => rw [split]
        exact (depthAfter_append_blanks all depth _).symm
    _ = depthAfter depth here := by rw [depthAfter, depthAfter, front]

/-- An entry counts for what its line does. -/
theorem walk_bodyEntry (line : Nat) (here : Text) {depth : Nat} (started : depth ≠ 0) :
    remaining (depthAfter depth here) =
      (bodyEntry line (Text.skipSpaces here)).walk depthAfter depth := by
  rw [← depthAfter_trimmed depth here]
  generalize Text.skipSpaces here = text
  unfold bodyEntry
  split
  · next rest =>
    obtain ⟨blanks, split, all, -⟩ := Text.trimEnd_split ('#' :: rest)
    have plain : depthAfter depth (Text.trimEnd ('#' :: rest)) = depth := by
      rw [← depthAfter_append_blanks all depth, ← split]
      exact depthAfter_of_not_directive (by simp [Text.trimStart, Text.isBlank]) depth
    rw [plain, remaining, if_neg started]
    rfl
  · rfl

/-- The lines of a rule, each counted as the command on it. -/
theorem follows_bodyEntries (c : Cursor) :
    Follows c (bodyEntries c).2 (Node.walks depthAfter (bodyEntries c).1) := by
  fun_induction bodyEntries c with
  | case1 c finished => exact .of_balanced (.refl c) ⟨[], .none c⟩
  | case2 c filled found shorter rest ih =>
    obtain ⟨kept, -⟩ := Option.filter_eq_some_iff.1 found
    have blank : Follows c filled some :=
      .of_balanced (balanced_filledLine kept) (filledLine_moves kept).1
    have line := (follows_nextLine filled).congr fun depth started =>
      walk_bodyEntry filled.line filled.here started
    exact (blank.trans line).trans ih

end Source

end BmakeZig
