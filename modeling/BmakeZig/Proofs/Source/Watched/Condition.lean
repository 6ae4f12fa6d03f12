import BmakeZig.Proofs.Source.Echo.Condition
import BmakeZig.Proofs.Source.Watched.Phrase

/-! Conditions under watch. A reader that takes another one as its operand is followed as long as that one
is. Brackets and negations nest, so they are counted on the way in: there is a level for every character
that is unread, and no level is the last one. -/
namespace BmakeZig.Source

namespace Watched

/-- One more operand, behind the operator. -/
def joinRound (kind : Kind) (operator : Text) (operand : Watched Node) (start : Head) (left : Node) :
    Watched (Node ⊕ Node) := do
  skipSpaces
  match ← token? operator with
  | none => return .inr left
  | some joint =>
    let right ← operand
    return .inl (← trimmed kind start [left, joint, right])

def joined (kind : Kind) (operator : Text) (operand : Watched Node) : Watched Node := do
  skipSpaces
  let start ← get
  let first ← operand
  loop (joinRound kind operator operand start) first

def comparison (operand : Watched Node) : Watched Node := do
  skipSpaces
  let start ← get
  let left ← operand
  skipSpaces
  match ← token? ['=', '='] with
  | none => return left
  | some sign =>
    let right ← operand
    trimmed .eq start [left, sign, right]

/-- Fewer negations than `limit`. -/
def negations (operand : Watched Node) : Nat → Watched Node
  | 0 => throw (.breach .endless)
  | limit + 1 => do
    skipSpaces
    let start ← get
    match ← token? ['!'] with
    | none => operand
    | some mark =>
      let inner ← negations operand limit
      trimmed .not start [mark, inner]

def negation (operand : Watched Node) : Watched Node := do
  negations operand ((← unread).length + 1)

def nameOrDefined : Watched Node := do
  let start ← get
  let name ← named .identifier
  if name.text = "defined".toList then
    skipSpaces
    match ← token? ['('] with
    | none => return name
    | some opening =>
      skipSpaces
      let target ← named .identifier
      skipSpaces
      let closing ← token [')']
      covered .isDefined start [.token start.line name.text, opening, target, closing]
  else return name

/-- A quoted string, which ends on its line. -/
def quoted : Watched Node := do
  let start ← get
  match Text.cutAt? '"' (← cut (start.offset + 1) (← lineEnd)) with
  | none => throw .unread
  | some (inside, _) =>
    advance (inside.length + 2)
    covered .string start []

def bracketed (inner : Watched Node) : Watched Node := do
  advance 1
  let node ← inner
  skipSpaces
  if ← consume [')'] then return node else throw .unread

def primary (inner : Watched Node) : Watched Node := do
  skipSpaces
  if ← peek ['('] then bracketed inner
  else if ← peek ['"'] then quoted
  else if ← peek ['$'] then expansion (← lineEnd)
  else nameOrDefined

def conditionWithin : Nat → Watched Node
  | 0 => throw (.breach .endless)
  | depth + 1 =>
    joined .or ['|', '|'] <|
      joined .and ['&', '&'] <| comparison <| negation <| primary (conditionWithin depth)

def condition : Watched Node := do
  conditionWithin ((← unread).length + 1)

variable {source left behind rest whole operator : Text} {c : Cursor} {size limit : Nat}
  {watched watched' : Watched Node} {reader operand inner : Reader} {node : Node}

/-- On what is left of the line, as long as it is shorter than `size`, the watched reader comes to what the
reader does. -/
def Tracks (source : Text) (c : Cursor) (size : Nat) (watched : Watched Node) (reader : Reader) : Prop :=
  ∀ ⦃left : Text⦄, left.length < size → (c.within left).In source →
    Comes source watched (c.within left) ((reader left).map fun found => (found.1, c.within found.2))

theorem Tracks.split (tracks : Tracks source c size watched reader) (short : left.length < size)
    (inside : (c.within left).In source) :
    (reader left = none ∧ Fails source watched (c.within left)) ∨
      ∃ node after, reader left = some (node, after) ∧
        Leads source watched (c.within left) node (c.within after) ∧ after.length ≤ left.length := by
  have comes := tracks short inside
  cases read : reader left with
  | none => exact .inl ⟨rfl, by rwa [read] at comes⟩
  | some found =>
    rw [read] at comes
    have later := Comes.later comes
    simp only [Cursor.length_within] at later
    exact .inr ⟨found.1, found.2, rfl, comes, by omega⟩

/-! Operators. -/

theorem comes_operands (kind : Kind) (tracks : Tracks source c size watched operand)
    (filled : operator ≠ []) (single : '\n' ∉ operator) {limit' : Nat} (enough : rest.length < limit)
    (enough' : rest.length < limit') (within : rest.length ≤ size) (fits : rest.length ≤ whole.length)
    (started : (c.within whole).In source) (inside : (c.within rest).In source) (node : Node) :
    Comes source (rounds (joinRound kind operator watched ((c.within whole).head source)) limit' node)
      (c.within rest)
      ((operands c.line kind operator operand whole limit node rest).map fun found =>
        (found.1, c.within found.2)) := by
  induction limit generalizing limit' node rest with
  | zero => omega
  | succ limit ih =>
    have skipped := Text.length_skipSpaces_le rest
    have gap := leads_skipSpaces inside
    rw [operands]
    rcases token?_split single gap.inside with ⟨none, stays⟩ | ⟨behind, found, joint⟩
    · rw [none]
      exact comes_rounds_stop (by omega) inside (gap.bind fun _ => stays.bind fun inside => leads_pure inside _)
    · have shorter := length_behind_operator filled found
      rw [found]
      dsimp only
      rcases tracks.split (by omega) joint.inside with ⟨none, fails⟩ | ⟨right, after, read, leads, later⟩
      · rw [none]
        exact comes_rounds_stop (by omega) inside (gap.bind fun _ => joint.bind fun _ => Comes.bindFails fails)
      · rw [read]
        refine comes_rounds_next (by omega) inside (gap.bind fun _ => joint.bind fun _ =>
          leads.bind fun inside => (leads_trimmed_within started inside (by omega) kind _).bind fun inside =>
            leads_pure inside _) (by simp only [Cursor.length_within]; omega) ?_
        exact ih (by omega) (by omega) (by omega) (by omega) leads.inside _

theorem joined_tracks (kind : Kind) (filled : operator ≠ []) (single : '\n' ∉ operator)
    (tracks : Tracks source c size watched operand) :
    Tracks source c size (joined kind operator watched) (Source.joined c.line kind operator operand) := by
  intro left short inside
  have skipped := Text.length_skipSpaces_le left
  refine (leads_skipSpaces inside).bind fun started => (leads_get started).bind fun inside => ?_
  simp only [Source.joined]
  rcases tracks.split (by omega) inside with ⟨none, fails⟩ | ⟨first, after, read, leads, later⟩
  · rw [none]
    exact Comes.bindFails fails
  · rw [read]
    refine Comes.bind leads fun inside => comes_loop inside ?_
    exact comes_operands kind tracks filled single (by omega) (c.length_lt_within _) (by omega)
      later started inside first

theorem comparison_tracks (tracks : Tracks source c size watched operand) :
    Tracks source c size (comparison watched) (Source.comparison c.line operand) := by
  intro left short inside
  have skipped := Text.length_skipSpaces_le left
  refine (leads_skipSpaces inside).bind fun started => (leads_get started).bind fun inside => ?_
  simp only [Source.comparison]
  rcases tracks.split (by omega) inside with ⟨none, fails⟩ | ⟨first, after, read, leads, later⟩
  · rw [none]
    exact Comes.bindFails fails
  rw [read]
  refine Comes.bind leads fun inside => (leads_skipSpaces inside).bind fun inside => ?_
  rcases token?_split (show '\n' ∉ ['=', '='] by decide) inside with ⟨none, stays⟩ | ⟨behind, found, sign⟩
  · simp only [none]
    exact stays.bind fun inside => leads_pure inside _
  have shorter := length_behind_operator (List.cons_ne_nil _ _) found
  simp only [found]
  refine sign.bind fun inside => ?_
  rcases tracks.split (by omega) inside with ⟨none, fails⟩ | ⟨right, last, read, leads, later'⟩
  · rw [none]
    exact Comes.bindFails fails
  · rw [read]
    exact Comes.bind leads fun inside => leads_trimmed_within started inside (by omega) .eq _

/-! Negations and primaries. -/

theorem comes_negations (tracks : Tracks source c size watched operand) (enough : left.length < limit)
    (short : left.length < size) (inside : (c.within left).In source) :
    Comes source (negations watched limit) (c.within left)
      ((Source.negation c.line operand left).map fun found => (found.1, c.within found.2)) := by
  have mark : '!' ≠ '\n' := by decide
  fun_induction Source.negation c.line operand left generalizing limit with
  | case1 left behind next shorter ih =>
    obtain ⟨limit, rfl⟩ := Nat.exists_eq_succ_of_ne_zero (Nat.ne_zero_of_lt enough)
    refine (leads_skipSpaces inside).bind fun started => (leads_get started).bind fun inside => ?_
    rw [next] at started inside ⊢
    refine (leads_token? inside (moves_mark mark c behind)).bind fun inside => ?_
    have more := ih (by omega : _ < limit) (by omega) inside
    cases read : Source.negation c.line operand behind with
    | none => exact Comes.bindFails (by rwa [read] at more)
    | some found =>
      rw [read] at more
      have later : (c.within found.2).rest.length ≤ (c.within behind).rest.length := Comes.later more
      simp only [Cursor.length_within] at later
      exact Comes.bind more fun inside =>
        leads_trimmed_within started inside (by rw [List.length_cons]; omega) .not _
  | case2 left plain =>
    obtain ⟨limit, rfl⟩ := Nat.exists_eq_succ_of_ne_zero (Nat.ne_zero_of_lt enough)
    have skipped := Text.length_skipSpaces_le left
    refine (leads_skipSpaces inside).bind fun inside => (leads_get inside).bind fun inside => ?_
    refine (leads_token?_other inside (unmarked mark plain)).bind fun inside => ?_
    exact tracks (by omega) inside

theorem negation_tracks (tracks : Tracks source c size watched operand) :
    Tracks source c size (negation watched) (Source.negation c.line operand) := by
  intro left short inside
  refine (leads_unread inside).bind fun inside => ?_
  exact comes_negations tracks (c.length_lt_within left) short inside

theorem nameOrDefined_tracks (size : Nat) :
    Tracks source c size nameOrDefined (Source.nameOrDefined c.line) := by
  intro left short started
  refine (leads_get started).bind fun inside => ?_
  unfold Source.nameOrDefined
  cases found : Text.name? left with
  | none => exact Comes.bindFails (fails_named .identifier found inside)
  | some read =>
    obtain ⟨name, after⟩ := read
    refine (leads_named .identifier found inside).bind fun inside => ?_
    dsimp only [Node.leaf]
    split
    · refine (leads_skipSpaces inside).bind fun inside => ?_
      split
      · next behind opened =>
        rw [opened] at inside ⊢
        refine (leads_token? inside (moves_mark (by decide) c behind)).bind fun inside => ?_
        refine (leads_skipSpaces inside).bind fun inside => ?_
        cases aimed : Text.name? (Text.skipSpaces behind) with
        | none => exact Comes.bindFails (fails_named .identifier aimed inside)
        | some target =>
          obtain ⟨target, rest⟩ := target
          refine (leads_named .identifier aimed inside).bind fun inside => ?_
          refine (leads_skipSpaces inside).bind fun inside => ?_
          dsimp only
          split
          · next last closed =>
            rw [closed] at inside ⊢
            refine (leads_token inside (moves_mark (by decide) c last)).bind fun inside => ?_
            have whole := Text.length_of_name? found
            have bracket := length_behind_spaces opened
            have skipped := Text.length_skipSpaces_le behind
            have aim := Text.length_of_name? aimed
            have bracket' := length_behind_spaces closed
            exact leads_covered_within started inside (by omega) .isDefined _
          · next stillOpen => exact Comes.bindFails (fails_token inside (unmarked (by decide) stillOpen))
      · next plain =>
        exact (leads_token?_other inside (unmarked (by decide) plain)).bind fun inside => leads_pure inside _
    · exact leads_pure inside _

theorem comes_quoted (inside : (c.within ('"' :: left)).In source) (ending : c.lineEnd.In source) :
    Comes source quoted (c.within ('"' :: left))
      ((Text.cutAt? '"' left).map fun cut =>
        (.leaf .string c.line ('"' :: cut.1 ++ ['"']), c.within cut.2)) := by
  have single : '\n' ∉ '"' :: left := newline_not_mem_left inside ending
  have opening := moves_mark (show '"' ≠ '\n' by decide) c left
  have further := inside.moves opening
  have start := inside.offset_moves opening
  have tail := moves_within_lineEnd (fun member => single (List.mem_cons_of_mem _ member)) c
  refine (leads_get inside).bind fun started => (leads_lineEnd_within inside ending).bind fun inside => ?_
  have ahead := leads_cut further tail inside
  rw [start] at ahead
  refine ahead.bind fun inside => ?_
  cases cut : Text.cutAt? '"' left with
  | none => exact fails_throw source _
  | some found =>
    obtain ⟨before, after⟩ := found
    obtain rfl := Text.eq_append_of_cutAt? cut
    have closing : (c.within ('"' :: before ++ ['"'] ++ after)).Moves ('"' :: before ++ ['"']) (c.within after) := by
      refine moves_within_append (fun member => single ?_) c after
      simp only [List.mem_append, List.mem_cons, List.not_mem_nil] at member ⊢
      tauto
    have whole : '"' :: before ++ ['"'] ++ after = '"' :: (before ++ '"' :: after) := by simp
    have length : ('"' :: before ++ ['"']).length = before.length + 2 := by simp
    rw [whole] at closing
    have last := leads_advance inside closing
    rw [length] at last
    exact last.bind fun inside => leads_covered started closing .string []

theorem isPrefixOf_mark {d : Char} (other : ∀ rest, left = d :: rest → False) :
    ¬[d].isPrefixOf left = true := by
  rw [List.isPrefixOf_iff_prefix]
  rintro ⟨rest, rfl⟩
  exact other rest rfl

theorem comes_bracketed (tracks : Tracks source c size watched inner) (short : left.length < size + 1)
    (inside : (c.within left).In source) (next : Text.skipSpaces left = '(' :: behind) :
    Comes source (primary watched) (c.within left)
      ((Source.primary c.line inner left).map fun found => (found.1, c.within found.2)) := by
  have round := newline_not_mem_mark (show '(' ≠ '\n' by decide)
  have shorter := length_behind_spaces next
  have gap := leads_skipSpaces inside
  rw [next] at gap
  refine gap.bind fun inside => (leads_peek_within round inside).bind fun inside => ?_
  rw [if_pos (by simp)]
  refine (leads_advance inside (moves_mark (by decide) c behind)).bind fun inside => ?_
  rw [Source.primary, next]
  rcases tracks.split (by omega) inside with ⟨none, fails⟩ | ⟨node, after, read, leads, -⟩
  · simp only [none]
    exact Comes.bindFails fails
  · simp only [read]
    refine leads.bind fun inside => (leads_skipSpaces inside).bind fun inside => ?_
    split
    · next last closed =>
      rw [closed] at inside ⊢
      exact (leads_consume inside (moves_mark (by decide) c last)).bind fun inside => leads_pure inside _
    · next stillOpen =>
      exact (leads_consume_other inside (unmarked (by decide) stillOpen)).bind fun inside =>
        fails_throw source _

theorem primary_tracks (tracks : Tracks source c size watched inner) (ending : c.lineEnd.In source) :
    Tracks source c (size + 1) (primary watched) (Source.primary c.line inner) := by
  intro left short inside
  by_cases opened : ∃ behind, Text.skipSpaces left = '(' :: behind
  · obtain ⟨behind, next⟩ := opened
    exact comes_bracketed tracks short inside next
  have round := newline_not_mem_mark (show '(' ≠ '\n' by decide)
  have quote := newline_not_mem_mark (show '"' ≠ '\n' by decide)
  have dollar := newline_not_mem_mark (show '$' ≠ '\n' by decide)
  have gap := leads_skipSpaces inside
  unfold Source.primary
  split
  · next behind next => exact absurd ⟨behind, next⟩ opened
  · next behind next =>
    rw [next] at gap
    refine gap.bind fun inside => (leads_peek_within round inside).bind fun inside => ?_
    rw [if_neg (by simp)]
    refine (leads_peek_within quote inside).bind fun inside => ?_
    rw [if_pos (by simp), Option.map_map]
    exact comes_quoted inside ending
  · next behind next =>
    rw [next] at gap
    refine gap.bind fun inside => (leads_peek_within round inside).bind fun inside => ?_
    rw [if_neg (by simp)]
    refine (leads_peek_within quote inside).bind fun inside => ?_
    rw [if_neg (by simp)]
    refine (leads_peek_within dollar inside).bind fun inside => ?_
    rw [if_pos (by simp)]
    exact comes_expansion_lineEnd inside ending
  · next noRound noQuote noDollar =>
    refine gap.bind fun inside => (leads_peek_within round inside).bind fun inside => ?_
    rw [if_neg (isPrefixOf_mark noRound)]
    refine (leads_peek_within quote inside).bind fun inside => ?_
    rw [if_neg (isPrefixOf_mark noQuote)]
    refine (leads_peek_within dollar inside).bind fun inside => ?_
    rw [if_neg (isPrefixOf_mark noDollar)]
    exact nameOrDefined_tracks _ (Nat.lt_succ_self _) inside

/-- Brackets, by induction on how deep they may be. -/
theorem conditionWithin_tracks (ending : c.lineEnd.In source) {depth depth' : Nat} (enough : size ≤ depth)
    (enough' : size ≤ depth') :
    Tracks source c size (conditionWithin depth') (Source.conditionWithin c.line depth) := by
  induction depth generalizing size depth' with
  | zero =>
    intro left short
    omega
  | succ depth ih =>
    intro left short inside
    obtain ⟨depth', rfl⟩ := Nat.exists_eq_succ_of_ne_zero (by omega : depth' ≠ 0)
    -- A bracket takes a character, so what is inside is shorter by one.
    obtain ⟨size, rfl⟩ := Nat.exists_eq_succ_of_ne_zero (Nat.ne_zero_of_lt short)
    have inner := @ih size depth' (by omega) (by omega)
    have conjunction := joined_tracks .and (List.cons_ne_nil '&' ['&']) (by decide)
      (comparison_tracks (negation_tracks (primary_tracks inner ending)))
    exact joined_tracks .or (List.cons_ne_nil '|' ['|']) (by decide) conjunction short inside

theorem comes_condition (inside : (c.within left).In source) (ending : c.lineEnd.In source) :
    Comes source condition (c.within left)
      ((Source.condition c.line left).map fun found => (found.1, c.within found.2)) := by
  refine (leads_unread inside).bind fun inside => ?_
  have deep : left.length + 1 ≤ (c.within left).rest.length + 1 := by simp [Cursor.within]
  exact conditionWithin_tracks ending (Nat.le_refl _) deep (Nat.lt_succ_self _) inside

end Watched

end BmakeZig.Source
