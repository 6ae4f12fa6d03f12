import BmakeZig.Proofs.Source.Watched.Rule

/-! Conditional blocks under watch, and the statement at a place. The reader of bodies is an argument: a
block is followed as long as the bodies behind its first line are. -/
namespace BmakeZig.Source

namespace Watched

def blockTest (directive : Directive) : Watched Node :=
  match directive with
  | .ifHolds => condition
  | .ifDefined | .ifUndefined => named .identifier
  | _ => do
    let path ← phrase .path
    if path.text = [] then throw .unread else return path

def elifClause (body : List Directive → Watched Node) : Watched Node := do
  let start ← get
  let keyword ← token Directive.elseIf.spelling
  let test ← condition
  let inner ← below (body clauseEnds)
  covered .elifClause start [keyword, test, inner]

def elseClause (body : List Directive → Watched Node) : Watched Node := do
  let start ← get
  let keyword ← token Directive.otherwise.spelling
  let inner ← below (body [.endIf])
  covered .elseClause start [keyword, inner]

/-- One more clause, or the end of the block. -/
def clause (body : List Directive → Watched Node) (clauses : List Node) :
    Option Directive → Watched (List Node ⊕ List Node)
  | some .elseIf => return .inl (clauses ++ [← elifClause body])
  | some .otherwise => return .inl (clauses ++ [← elseClause body])
  | some .endIf => return .inr (clauses ++ [← token Directive.endIf.spelling])
  | _ => throw .unread

def clauseRound (body : List Directive → Watched Node) (clauses : List Node) :
    Watched (List Node ⊕ List Node) := do
  skipBlank
  clause body clauses (Directive.at? (← unread))

def block (body : List Directive → Watched Node) (directive : Directive) : Watched Node := do
  let start ← get
  let keyword ← token directive.spelling
  skipSpaces
  let test ← blockTest directive
  let inner ← below (body clauseEnds)
  let clauses ← loop (clauseRound body) []
  let node ← covered .conditional start (keyword :: test :: inner :: clauses)
  toLineEnd
  return node

/-- One more line of a block that could not be read. -/
def skipRound (depth : Nat) : Watched (Nat ⊕ Unit) := do
  if (← unread).isEmpty then return .inr ()
  else
    let start ← get
    let ending ← lineEnd
    let left := depthAfter depth (← cut start.offset ending)
    advanceTo ending
    if left = 0 then return .inr ()
    else
      newline
      return .inl left

def errorBlock : Watched Node := do
  let start ← get
  loop skipRound 0
  covered .error start []

def directiveStatement (body : List Directive → Watched Node) : Watched Node := do
  match Directive.at? (← unread) with
  | none => errorLine
  | some directive =>
    if directive.opensBlock then orElse (block body directive) errorBlock
    else orElse (lineDirective directive) errorLine

/-- Puts the head back where it was, to read from there once more. -/
def again (start : Head) (reader : Watched Node) : Watched Node := do
  moveTo start.offset start.line
  reader

def assignmentOrRule : Watched Node := do
  let start ← get
  let name ← named .identifier
  skipSpaces
  let colon ← peek [':']
  if name.text = alwaysTarget ∧ colon = true then again start rule else assigned start name

def statement (body : List Directive → Watched Node) : Watched Node := do
  match ← unread with
  | '#' :: _ => comment
  | '%' :: _ => directiveStatement body
  | '.' :: _ => orElse rule errorLine
  | _ => orElse assignmentOrRule errorLine

variable {source left : Text} {c middle : Cursor} {directive : Directive} {size limit : Nat}
  {watched : List Directive → Watched Node} {body : BodyReader}

/-- From places with less than `size` behind them the watched reader of bodies comes to what the other one
does. -/
def TracksBodies (source : Text) (size : Nat) (watched : List Directive → Watched Node)
    (body : BodyReader) : Prop :=
  ∀ (ends : List Directive) ⦃c : Cursor⦄, c.In source → c.rest.length < size →
    Leads source (watched ends) c (body ends c).1 (body ends c).2

/-! Clauses. -/

theorem filled_of_at? (named : Directive.at? c.rest = some directive) : c.rest ≠ [] := by
  intro empty
  rw [empty] at named
  cases named

/-- The body below a line is read from a place with less behind it. -/
theorem comes_body (tracks : TracksBodies source size watched body) (ends : List Directive)
    (inside : (c.within left).In source) (here : c.In source) (fits : c.rest.length ≤ size)
    (filled : c.rest ≠ []) :
    Comes source (below (watched ends)) (c.within left)
      (if Source.atLineEnd left then some (body ends c.nextLine) else none) := by
  have shorter := Cursor.length_nextLine_lt filled
  exact comes_below inside (here.moves c.moves_lineEnd) fun there => tracks ends there (by omega)

/-- A body is over no earlier than it starts. -/
theorem TracksBodies.later (tracks : TracksBodies source size watched body) (ends : List Directive)
    (here : c.In source) (fits : c.rest.length ≤ size) (filled : c.rest ≠ []) :
    (body ends c.nextLine).2.rest.length < c.rest.length := by
  obtain ⟨_, moves⟩ := c.moves_onward
  have shorter := Cursor.length_nextLine_lt filled
  have later : (body ends c.nextLine).2.rest.length ≤ c.nextLine.rest.length :=
    Comes.later (tracks ends (here.moves moves) (by omega))
  omega

/-- A clause with a test, when its line can be read. It ends where its body does. -/
def elifAt (body : BodyReader) (c : Cursor) : Option (Node × Cursor) :=
  let read := Source.condition c.line (Directive.elseIf.argument c.here)
  (read.filter fun found => Source.atLineEnd found.2).map fun found =>
    (.branch .elifClause c.line (c.upTo (body clauseEnds c.nextLine).2)
      [.token c.line Directive.elseIf.spelling, found.1, (body clauseEnds c.nextLine).1],
      (body clauseEnds c.nextLine).2)

/-- The clause for when no test holds. -/
def elseAt (body : BodyReader) (c : Cursor) : Option (Node × Cursor) :=
  if Source.atLineEnd (Directive.otherwise.argument c.here) then
    some (.branch .elseClause c.line (c.upTo (body [.endIf] c.nextLine).2)
      [.token c.line Directive.otherwise.spelling, (body [.endIf] c.nextLine).1],
      (body [.endIf] c.nextLine).2)
  else none

/-- The clause at a place, or the word that ends the block. -/
def clauseAt (body : BodyReader) (c : Cursor) : Option (Node × Cursor) :=
  match Directive.at? c.rest with
  | some .elseIf => elifAt body c
  | some .otherwise => elseAt body c
  | some .endIf =>
    some (.token c.line Directive.endIf.spelling, c.within (Directive.endIf.argument c.here))
  | _ => none

/-- Clauses are read one by one, up to the end of the block. -/
theorem clauses_eq (body : BodyReader) (limit : Nat) (c : Cursor) :
    clauses body (limit + 1) c = (clauseAt body c.skipBlank).bind fun found =>
      if Directive.at? c.skipBlank.rest = some .endIf then some ([found.1], found.2)
      else (clauses body limit found.2).map fun more => (found.1 :: more.1, more.2) := by
  rw [clauses, clauseAt]
  dsimp only
  cases named : Directive.at? c.skipBlank.rest with
  | none => rfl
  | some directive =>
    cases directive
    case elseIf =>
      dsimp only [elifAt]
      cases (Source.condition c.skipBlank.line (Directive.elseIf.argument c.skipBlank.here)).filter
        fun found => Source.atLineEnd found.2 <;> rfl
    case otherwise =>
      dsimp only [elseAt]
      split <;> rfl
    all_goals rfl

theorem comes_elifClause (tracks : TracksBodies source size watched body)
    (named : Directive.at? c.rest = some .elseIf) (inside : c.In source) (fits : c.rest.length ≤ size) :
    Comes source (elifClause watched) c (elifAt body c) := by
  have ending := inside.moves c.moves_lineEnd
  have filled := filled_of_at? named
  refine (leads_get inside).bind fun started => (leads_directive named started).bind fun inside => ?_
  have test := comes_condition inside ending
  unfold elifAt
  cases read : Source.condition c.line (Directive.elseIf.argument c.here) with
  | none => exact Comes.bindFails (by rwa [read] at test)
  | some found =>
    rw [read] at test
    refine Comes.bind test fun inside => ?_
    have inner := comes_body tracks clauseEnds inside started fits filled
    cases ended : Source.atLineEnd found.2 with
    | false =>
      rw [ended] at inner
      simp only [Option.filter_some, ended]
      exact Comes.bindFails inner
    | true =>
      rw [ended] at inner
      simp only [Option.filter_some, ended]
      have later := tracks.later clauseEnds started fits filled
      exact Comes.bind inner fun there =>
        leads_covered started (started.reaches there (Nat.le_of_lt later)) .elifClause _

theorem comes_elseClause (tracks : TracksBodies source size watched body)
    (named : Directive.at? c.rest = some .otherwise) (inside : c.In source) (fits : c.rest.length ≤ size) :
    Comes source (elseClause watched) c (elseAt body c) := by
  have filled := filled_of_at? named
  refine (leads_get inside).bind fun started => (leads_directive named started).bind fun inside => ?_
  have inner := comes_body tracks [.endIf] inside started fits filled
  unfold elseAt
  split
  · next ended =>
    rw [if_pos ended] at inner
    have later := tracks.later [.endIf] started fits filled
    exact Comes.bind inner fun there =>
      leads_covered started (started.reaches there (Nat.le_of_lt later)) .elseClause _
  · next unended =>
    rw [if_neg unended] at inner
    exact Comes.bindFails inner

/-- A clause that does not end the block has a line and a body behind it. -/
theorem clauseAt_shorter (tracks : TracksBodies source size watched body) (inside : c.In source)
    (fits : c.rest.length ≤ size) {found : Node × Cursor} (read : clauseAt body c = some found)
    (other : Directive.at? c.rest ≠ some .endIf) : found.2.rest.length < c.rest.length := by
  unfold clauseAt at read
  split at read
  · next named =>
    obtain ⟨_, -, rfl⟩ := Option.map_eq_some_iff.1 read
    exact tracks.later clauseEnds inside fits (filled_of_at? named)
  · next named =>
    obtain ⟨-, same⟩ := Option.ite_none_right_eq_some.1 read
    obtain rfl := Option.some.inj same
    exact tracks.later [.endIf] inside fits (filled_of_at? named)
  · next named => exact absurd named other
  · cases read

/-- One round over the clauses. -/
theorem comes_clauseRound (tracks : TracksBodies source size watched body) (nodes : List Node)
    (inside : c.In source) (fits : c.rest.length ≤ size) :
    Comes source (clauseRound watched nodes) c ((clauseAt body c.skipBlank).map fun found =>
      (if Directive.at? c.skipBlank.rest = some .endIf then .inr (nodes ++ [found.1])
        else .inl (nodes ++ [found.1]), found.2)) := by
  have there := inside.moves c.moves_skipBlank
  have fits' := c.moves_skipBlank.later.trans fits
  refine (leads_skipBlank inside).bind fun inside => (leads_unread inside).bind fun _ => ?_
  have going {reader : Watched Node} {read : Option (Node × Cursor)}
      (comes : Comes source reader c.skipBlank read) :
      Comes source (do return .inl (nodes ++ [← reader]) : Watched (List Node ⊕ List Node)) c.skipBlank
        (read.map fun found => (.inl (nodes ++ [found.1]), found.2)) := by
    cases read with
    | none => exact Comes.bindFails comes
    | some found => exact Comes.bind comes fun inside => leads_pure inside _
  unfold clauseAt
  cases named : Directive.at? c.skipBlank.rest with
  | none => exact fails_throw source _
  | some directive =>
    cases directive
    case elseIf => exact going (comes_elifClause tracks named there fits')
    case otherwise => exact going (comes_elseClause tracks named there fits')
    case endIf => exact (leads_directive named there).bind fun inside => leads_pure inside _
    all_goals exact fails_throw source _

/-- The rounds over the clauses, the last of which is over with the end of the block. -/
theorem comes_clauses (tracks : TracksBodies source size watched body) {limit' : Nat} (nodes : List Node)
    (inside : c.In source) (fits : c.rest.length ≤ size) (enough : c.rest.length < limit)
    (enough' : c.rest.length < limit') :
    Comes source (rounds (clauseRound watched) limit' nodes) c
      ((clauses body limit c).map fun found => (nodes ++ found.1, found.2)) := by
  induction limit generalizing c limit' nodes with
  | zero => omega
  | succ limit ih =>
    have nearer := c.moves_skipBlank.later
    have round := comes_clauseRound tracks nodes inside fits
    rw [clauses_eq]
    cases read : clauseAt body c.skipBlank with
    | none =>
      rw [read] at round
      exact comes_rounds_stop (by omega) inside round
    | some found =>
      rw [read] at round
      dsimp only [Option.bind_some, Option.map_some] at round ⊢
      split
      · next ended =>
        rw [if_pos ended] at round
        exact comes_rounds_stop (by omega) inside round
      · next other =>
        rw [if_neg other] at round
        have there := inside.moves c.moves_skipBlank
        have shorter := clauseAt_shorter tracks there (nearer.trans fits) read other
        have more := ih (nodes ++ [found.1]) (Comes.inside round) (by omega) (by omega)
          (by omega : _ < limit' - 1)
        refine comes_rounds_next (by omega) inside round (by omega) ?_
        simpa [Option.map_map, Function.comp_def] using more

/-! Blocks. -/

/-- The test of a block with what is left of its line, as the header of the block has it. -/
def testRead (directive : Directive) (line : Nat) (argument : Text) : Option (Node × Text) :=
  match directive with
  | .ifHolds => Source.condition line argument
  | .ifDefined | .ifUndefined =>
    (Text.name? argument).map fun found => (.leaf .identifier line found.1, found.2)
  | _ =>
    let path := Source.phrase .path line argument
    if path.text = [] then none else some (path, [])

theorem blockHeader_eq (directive : Directive) (line : Nat) (here : Text) :
    blockHeader directive line here =
      ((testRead directive line (Text.skipSpaces (directive.argument here))).filter fun found =>
        Source.atLineEnd found.2).map (·.1) :=
  rfl

theorem comes_blockTest (directive : Directive) (inside : (c.within left).In source)
    (ending : c.lineEnd.In source) :
    Comes source (blockTest directive) (c.within left)
      ((testRead directive c.line left).map fun found => (found.1, c.within found.2)) := by
  have path : Comes source (do
      let path ← phrase .path
      if path.text = [] then throw .unread else return path) (c.within left)
      ((if (Source.phrase .path c.line left).text = [] then none
        else some (Source.phrase .path c.line left, [])).map fun found => (found.1, c.within found.2)) := by
    refine (leads_phrase .path inside ending).bind fun inside => ?_
    split
    · exact fails_throw source _
    · exact leads_pure inside _
  cases directive
  case ifHolds => exact comes_condition inside ending
  case ifDefined | ifUndefined =>
    have name := comes_named_within .identifier inside
    simpa [testRead, blockTest, Option.map_map, Function.comp_def] using name
  all_goals exact path

theorem comes_block (tracks : TracksBodies source size watched body)
    (named : Directive.at? c.rest = some directive) (inside : c.In source) (fits : c.rest.length ≤ size) :
    Comes source (block watched directive) c (Source.block body directive c) := by
  have ending := inside.moves c.moves_lineEnd
  have filled := filled_of_at? named
  refine (leads_get inside).bind fun started => (leads_directive named started).bind fun inside => ?_
  refine (leads_skipSpaces inside).bind fun inside => ?_
  have test := comes_blockTest directive inside ending
  rw [Source.block, blockHeader_eq]
  cases read : testRead directive c.line (Text.skipSpaces (directive.argument c.here)) with
  | none => exact Comes.bindFails (by rwa [read] at test)
  | some found =>
    rw [read] at test
    refine Comes.bind test fun inside => ?_
    have inner := comes_body tracks clauseEnds inside started fits filled
    cases ended : Source.atLineEnd found.2 with
    | false =>
      rw [ended] at inner
      simp only [Option.filter_some, ended]
      exact Comes.bindFails inner
    | true =>
      rw [ended] at inner
      simp only [Option.filter_some, ended]
      have later := tracks.later clauseEnds started fits filled
      refine Comes.bind inner fun there => ?_
      have further := comes_loop there
        (comes_clauses tracks [] there (by omega) (Nat.lt_succ_self _) (Nat.lt_succ_self _))
      simp only [if_true, Option.map_some]
      cases more : clauses body ((body clauseEnds c.nextLine).2.rest.length + 1) (body clauseEnds c.nextLine).2 with
      | none => exact Comes.bindFails (by rwa [more] at further)
      | some found =>
        rw [more] at further
        have behind : found.2.rest.length ≤ (body clauseEnds c.nextLine).2.rest.length := Comes.later further
        refine Comes.bind further fun there => ?_
        refine (leads_covered started (started.reaches there (by omega)) .conditional _).bind fun there => ?_
        exact (leads_toLineEnd there).bind fun inside => leads_pure inside _

/-! Blocks that could not be read. -/

theorem leads_skipRounds (depth : Nat) (inside : c.In source) (enough : c.rest.length < limit) :
    Leads source (rounds skipRound limit depth) c () (skipBlock depth c) := by
  induction limit generalizing c depth with
  | zero => omega
  | succ limit ih =>
    by_cases spent : c.rest = []
    · have still : skipBlock depth c = c := by
        obtain ⟨line, rest⟩ := c
        obtain rfl : rest = [] := spent
        exact skipBlock_last rfl
      rw [still]
      refine comes_rounds_stop (by omega) inside ((leads_unread inside).bind fun inside => ?_)
      rw [if_pos (by simp [spent])]
      exact leads_pure inside _
    · have line {outcome : Option ((Nat ⊕ Unit) × Cursor)}
          (turn : c.lineEnd.In source → Comes source (if depthAfter depth c.here = 0 then return .inr ()
            else do
              newline
              return .inl (depthAfter depth c.here)) c.lineEnd outcome) :
          Comes source (skipRound depth) c outcome := by
        refine (leads_unread inside).bind fun inside => ?_
        rw [if_neg (by simpa using spent)]
        refine (leads_get inside).bind fun started => (leads_lineEnd inside).bind fun inside => ?_
        refine (leads_cut started c.moves_lineEnd inside).bind fun inside => ?_
        exact (leads_advanceTo inside c.moves_lineEnd).bind turn
      by_cases closed : depthAfter depth c.here = 0
      · rw [skipBlock_closed closed]
        refine comes_rounds_stop (by omega) inside (line fun inside => ?_)
        rw [if_pos closed]
        exact leads_pure inside _
      · rw [skipBlock_next closed]
        have turn : Leads source (skipRound depth) c (.inl (depthAfter depth c.here)) c.nextLine := by
          refine line fun inside => ?_
          rw [if_neg closed]
          exact (leads_newline inside).bind fun inside => leads_pure inside _
        have shorter := Cursor.length_nextLine_lt spent
        exact comes_rounds_next (by omega) inside turn shorter (ih _ turn.inside (by omega))

theorem leads_errorBlock (inside : c.In source) :
    Leads source errorBlock c (Source.errorBlock c).1 (Source.errorBlock c).2 := by
  have skipped := comes_loop inside (leads_skipRounds 0 inside (Nat.lt_succ_self _))
  exact (leads_get inside).bind fun started => Comes.bind skipped fun there =>
    leads_covered started (started.reaches there (Comes.later skipped)) .error []

/-! Statements. -/

/-- What the first reader reads, or what the second one does in its place. -/
theorem leads_getD {first second : Watched Node} {read : Option (Node × Cursor)} {fallback : Node × Cursor}
    (inside : c.In source) (comes : Comes source first c read)
    (other : Leads source second c fallback.1 fallback.2) :
    Leads source (orElse first second) c (read.getD fallback).1 (read.getD fallback).2 := by
  cases read with
  | none => exact comes_orElse inside comes other
  | some found => exact leads_orElse inside comes

theorem leads_directiveStatement (tracks : TracksBodies source size watched body) (inside : c.In source)
    (fits : c.rest.length ≤ size) :
    Leads source (directiveStatement watched) c (Source.directiveStatement body c).1
      (Source.directiveStatement body c).2 := by
  refine (leads_unread inside).bind fun inside => ?_
  unfold Source.directiveStatement
  cases named : Directive.at? c.rest with
  | none => exact leads_errorLine inside
  | some directive =>
    dsimp only
    split
    · exact leads_getD inside (comes_block tracks named inside fits) (leads_errorBlock inside)
    · exact leads_getD inside (comes_lineDirective named inside) (leads_errorLine inside)

/-- Reading once more from an earlier place, up to one that is not in front of the head. -/
theorem comes_again {reader : Watched Node} {outcome : Option (Node × Cursor)} (inside : c.In source)
    (later : ∀ found ∈ outcome, found.2.rest.length ≤ middle.rest.length)
    (comes : Comes source reader c outcome) :
    Comes source (again (c.head source) reader) middle outcome := by
  have back : again (c.head source) reader (middle.head source) = reader (c.head source) := by
    have moved : moveTo (c.head source).offset (c.head source).line (middle.head source) =
        .ok () (c.head source) := moveTo_run inside _ _
    simp only [again, Bind.bind, EStateM.bind, moved]
  cases comes with
  | read run there _ => exact .read (back.trans run) there (later _ rfl)
  | unread run => exact .unread (back.trans run)

theorem isPrefixOf_mark_iff {d : Char} : [d].isPrefixOf left = true ↔ left.head? = some d := by
  rw [List.isPrefixOf_iff_prefix, List.head?_eq_some_iff]
  exact ⟨fun ⟨rest, whole⟩ => ⟨rest, whole.symm⟩, fun ⟨rest, whole⟩ => ⟨rest, whole.symm⟩⟩

theorem leads_assignmentOrRule (inside : c.In source) :
    Leads source (orElse assignmentOrRule errorLine) c (Source.assignmentOrRule c).1
      (Source.assignmentOrRule c).2 := by
  have here : (c.within c.here).In source := by rwa [within_here]
  unfold Source.assignmentOrRule
  cases found : Text.name? c.here with
  | none =>
    have fails := fails_named .identifier found here
    rw [within_here] at fails
    exact comes_orElse inside ((leads_get inside).bind fun _ => Comes.bindFails fails) (leads_errorLine inside)
  | some read =>
    obtain ⟨name, after⟩ := read
    have word := leads_named .identifier found here
    rw [within_here] at word
    have colon := newline_not_mem_mark (show ':' ≠ '\n' by decide)
    have start {outcome : Option (Node × Cursor)}
        (tail : (c.within (Text.skipSpaces after)).In source → Comes source
          (if name = alwaysTarget ∧ [':'].isPrefixOf (Text.skipSpaces after) = true then again (c.head source) rule
            else assigned (c.head source) (.leaf .identifier c.line name))
          (c.within (Text.skipSpaces after)) outcome) :
        Comes source assignmentOrRule c outcome :=
      (leads_get inside).bind fun _ => word.bind fun inside => (leads_skipSpaces inside).bind fun inside =>
        (leads_peek_within colon inside).bind tail
    dsimp only
    split
    · next always =>
      refine leads_getD inside (start fun there => ?_) (leads_errorLine inside)
      rw [if_pos (by rwa [isPrefixOf_mark_iff])]
      refine comes_again inside (fun found read => ?_) (comes_rule inside)
      obtain ⟨header, -, rfl⟩ := Option.map_eq_some_iff.1 read
      have below := ruleBody_later c
      simp only [Cursor.length_within]
      omega
    · next other =>
      refine leads_getD inside (start fun there => ?_) (leads_errorLine inside)
      rw [if_neg (by rwa [isPrefixOf_mark_iff])]
      exact comes_assigned found inside there

theorem leads_statement (tracks : TracksBodies source size watched body) (inside : c.In source)
    (fits : c.rest.length ≤ size) :
    Leads source (statement watched) c (Source.statement body c).1 (Source.statement body c).2 := by
  have here : (c.within c.here).In source := by rwa [within_here]
  have comment := leads_comment here (inside.moves c.moves_lineEnd)
  rw [within_here] at comment
  unfold Source.statement
  split
  · next rest first =>
    refine (leads_unread inside).bind fun inside => ?_
    rw [first]
    exact comment
  · next rest first =>
    refine (leads_unread inside).bind fun inside => ?_
    rw [first]
    exact leads_directiveStatement tracks inside fits
  · next rest first =>
    refine (leads_unread inside).bind fun inside => ?_
    rw [first]
    exact leads_getD inside (comes_rule inside) (leads_errorLine inside)
  · next noComment noDirective noRule =>
    refine (leads_unread inside).bind fun inside => ?_
    split
    · next same => exact absurd same (noComment _)
    · next same => exact absurd same (noDirective _)
    · next same => exact absurd same (noRule _)
    · exact leads_assignmentOrRule inside

end Watched

end BmakeZig.Source
