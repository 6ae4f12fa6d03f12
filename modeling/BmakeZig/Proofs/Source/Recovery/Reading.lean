import BmakeZig.Proofs.Source.Recovery.Walk

/-! Every reader stops where a recovery comes with the walk through what was read. One lemma per reader,
from a rule up to lists of statements. What is known of the commands of a rule is an argument: they may be
counted as they stand, or not at all in a source in which none of them can be taken for a directive. -/
namespace BmakeZig

namespace Shape

variable {node : Node}

theorem idle_of_condition (shape : Shape .condition node) : node.isIdle = true := by
  cases shape with
  | named inner => cases inner; rfl
  | expansion inner => cases inner <;> rfl
  | joined kinds => rcases kinds with rfl | rfl | rfl <;> rfl
  | string | defined | negated => rfl

theorem idle_of_test {directive : Source.Directive} (opens : directive.opensBlock = true)
    (shape : Shape directive.testRole node) : node.isIdle = true := by
  cases directive <;> simp only [Source.Directive.opensBlock, Bool.false_eq_true] at opens
  case ifHolds => exact idle_of_condition shape
  case ifDefined | ifUndefined => cases shape; rfl
  case ifFile | ifNoFile => cases shape; rfl

end Shape

namespace Source

variable {c stop : Cursor} {first : Char} {body : BodyReader} {node : Node} {nodes : List Node}
  {good : Text → Prop} {command : Nat → Text → Nat}

theorem follows_skipBlank (c : Cursor) : Follows c c.skipBlank some :=
  .of_balanced (balanced_skipBlank c) ⟨_, c.moves_skipBlank⟩

/-- A reader that finds a node the walk passes over, between places with as many open blocks. -/
theorem Balanced.follows (balanced : Balanced c stop) (moves : ∃ text, c.Moves text stop)
    (idle : node.isIdle = true) : Follows c stop (node.walk command) :=
  (Follows.of_balanced balanced moves).congr fun depth _ => (node.walk_idle idle depth).symm

/-- In a good source the commands count as they are said to. A good source is good from any place on. -/
structure Counts (good : Text → Prop) (command : Nat → Text → Nat) : Prop where
  suffix : ∀ {used rest : Text}, good (used ++ rest) → good rest
  entries : ∀ {c : Cursor}, good c.rest →
    Follows c.nextLine (bodyEntries c.nextLine).2 (Node.walks command (bodyEntries c.nextLine).1)

theorem counts_all : Counts (fun _ => True) depthAfter where
  suffix := id
  entries {c} _ := follows_bodyEntries c.nextLine

theorem Counts.onward {count : Nat → Option Nat} (counts : Counts good command)
    (follows : Follows c stop count) (held : good c.rest) : good stop.rest := by
  obtain ⟨_, moves⟩ := follows.moves
  rw [moves.rest] at held
  exact counts.suffix held

/-- The reader stops where the walk through what it has read says. -/
def ReadsFollowing (good : Text → Prop) (command : Nat → Text → Nat) (body : BodyReader) : Prop :=
  ∀ ends c, Directive.endIf ∈ ends → good c.rest →
    Follows c (body ends c).2 ((body ends c).1.walk command)

/-! Rules. -/

theorem idle_of_ruleHeader {line : Nat} {here : Text} (read : ruleHeader line here = some nodes) :
    ∀ node ∈ nodes, node.isIdle = true := by
  unfold ruleHeader at read
  split at read
  · cases read
  · next target left aimed =>
    have shape := shape_of_target? aimed
    split at read
    · split at read
      · obtain rfl := Option.some.inj read
        refine List.forall_mem_cons.2 ⟨?_, by simp [Node.token, Node.isIdle]⟩
        cases shape <;> rfl
      · cases read
    · cases read

theorem rule_follows (counts : Counts good command) {found : Node × Cursor} (held : good c.rest)
    (plain : ∀ depth, depthAfter depth c.here = depth) (read : rule c = some found) :
    Follows c found.2 (found.1.walk command) := by
  obtain ⟨header, named, rfl⟩ := Option.map_eq_some_iff.1 read
  have line : Follows c c.nextLine some := .of_balanced (balanced_nextLine plain) c.moves_onward
  rw [ruleBody_eq]
  refine (line.trans (counts.entries held)).congr fun depth _ => ?_
  simp only [Node.branch, Node.walk, Node.walks_append, Node.walks_idle (idle_of_ruleHeader named),
    Node.walks_singleton, Option.bind_some]

/-! Blocks. -/

theorem follows_opening {directive : Directive} (named : Directive.at? c.rest = some directive)
    (starts : directive.opensBlock = true) : Follows c c.nextLine fun depth => some (depth + 1) :=
  (follows_nextLine c).congr fun depth _ => by
    rw [(opens_of_at? named).depthAfter_opening named starts, remaining, if_neg (by simp)]

theorem follows_endIf (named : Directive.at? c.rest = some .endIf) :
    Follows c c.lineEnd fun depth => remaining (depth - 1) where
  moves := ⟨_, c.moves_lineEnd⟩
  goes depth started left counted := by
    unfold remaining at counted
    split at counted
    · cases counted
    · next stillOpen =>
      obtain rfl := Option.some.inj counted
      have after := (opens_of_at? named).depthAfter_endIf named depth
      rw [skipBlock_next (by rwa [after]), after]
      exact ⟨stillOpen, skipBlock_behind stillOpen⟩
  ends depth started none := by
    unfold remaining at none
    split at none
    · next closed =>
      rw [skipBlock_closed (((opens_of_at? named).depthAfter_endIf named depth).trans closed)]
    · cases none

/-- A clause, behind the body of which the block goes on. -/
theorem clause_follows (follows : ReadsFollowing good command body) {directive : Directive}
    {ends : List Directive} {kind : Kind} {text : Text} {header more : List Node} {ending : Cursor}
    (below : good c.nextLine.rest) (named : Directive.at? c.rest = some directive)
    (plain : directive.opensBlock = false ∧ directive ≠ .endIf) (closes : .endIf ∈ ends)
    (kinds : kind = .elifClause ∨ kind = .elseClause) (idle : ∀ node ∈ header, node.isIdle = true)
    (behind : Follows (body ends c.nextLine).2 ending (Node.walks command more)) :
    Follows c ending (Node.walks command
      (.branch kind c.line text (header ++ [(body ends c.nextLine).1]) :: more)) := by
  have word := (opens_of_at? named).depthAfter_plain fun other same => by
    rwa [Option.some.inj (named.symm.trans same)] at plain
  have line : Follows c c.nextLine some := .of_balanced (balanced_nextLine word) c.moves_onward
  have inner := follows ends c.nextLine closes below
  refine ((line.trans inner).trans behind).congr fun depth _ => ?_
  rcases kinds with rfl | rfl <;>
    simp only [Node.branch, Node.walks, Node.walk, Node.walks_append, Node.walks_idle idle,
      Option.bind_some, Option.bind_fun_some]

/-- The clauses of a block, up to the line of its end. -/
theorem clauses_follow (counts : Counts good command)
    (follows : ReadsFollowing good command body) {limit : Nat} {before last : Cursor}
    (held : good before.rest) (read : clauses body limit before = some (nodes, last)) :
    ∃ ending, Directive.at? ending.rest = some .endIf ∧ ending.lineEnd = last.lineEnd ∧
      Follows before ending (Node.walks command nodes) := by
  induction limit generalizing before nodes last with
  | zero => cases read
  | succ limit ih =>
    have gap := follows_skipBlank before
    have further := counts.onward gap held
    simp only [clauses] at read
    generalize before.skipBlank = c at further gap read
    have below := counts.onward (follows_nextLine c) further
    split at read
    · next named =>
      split at read
      · cases read
      · next test left tested =>
        obtain ⟨⟨more, final⟩, rest, same⟩ := Option.map_eq_some_iff.1 read
        obtain ⟨rfl, rfl⟩ := Prod.mk.inj same
        obtain ⟨ending, ends, same, behind⟩ := ih (counts.onward (follows _ _ (by decide) below) below) rest
        have idle := (condition_reads (Option.filter_eq_some_iff.1 tested).1).idle_of_condition
        have header : ∀ node ∈ [Node.token c.line Directive.elseIf.spelling, test],
            node.isIdle = true := by simpa [Node.token, Node.isIdle] using idle
        exact ⟨ending, ends, same, gap.trans <|
          clause_follows follows below named (by decide) (by decide) (.inl rfl) header behind⟩
    · next named =>
      split at read
      · obtain ⟨⟨more, final⟩, rest, same⟩ := Option.map_eq_some_iff.1 read
        obtain ⟨rfl, rfl⟩ := Prod.mk.inj same
        obtain ⟨ending, ends, same, behind⟩ := ih (counts.onward (follows _ _ (by decide) below) below) rest
        have header : ∀ node ∈ [Node.token c.line Directive.otherwise.spelling],
            node.isIdle = true := by simp [Node.token, Node.isIdle]
        exact ⟨ending, ends, same, gap.trans <|
          clause_follows follows below named (by decide) (by decide) (.inr rfl) header behind⟩
      · cases read
    · next named =>
      obtain ⟨rfl, rfl⟩ := Prod.mk.inj (Option.some.inj read)
      obtain ⟨-, ends⟩ := c.here_within (argument_single .endIf c)
      refine ⟨c, named, by rw [Cursor.lineEnd, Cursor.lineEnd, ends]; rfl, gap.congr fun depth _ => ?_⟩
      rw [Node.walks_idle (by simp [Node.token, Node.isIdle])]
    · cases read

/-- What is read of a block between its first line and its last one. -/
theorem block_inside (counts : Counts good command)
    (follows : ReadsFollowing good command body) {directive : Directive} (held : good c.rest)
    (starts : directive.opensBlock = true) (read : block body directive c = some (node, stop)) :
    node.kind = .conditional ∧ ∃ ending, Directive.at? ending.rest = some .endIf ∧
      ending.lineEnd = stop ∧ Follows c.nextLine ending (Node.walks command node.children) := by
  simp only [block] at read
  split at read
  · cases read
  · next test tested =>
    obtain ⟨⟨more, last⟩, closed, same⟩ := Option.map_eq_some_iff.1 read
    obtain ⟨rfl, rfl⟩ := Prod.mk.inj same
    have below := counts.onward (follows_nextLine c) held
    have inner := follows clauseEnds c.nextLine (by decide) below
    obtain ⟨ending, ends, same, behind⟩ :=
      clauses_follow counts follows (counts.onward inner below) closed
    have idle := (shape_of_blockHeader starts c.newline_not_mem_here tested).idle_of_test starts
    refine ⟨rfl, ending, ends, same, (inner.trans behind).congr fun depth _ => ?_⟩
    simp only [Node.branch, Node.walks, Node.walk_idle idle, Option.bind_some]
    rfl

theorem block_follows (counts : Counts good command)
    (follows : ReadsFollowing good command body) {directive : Directive} (held : good c.rest)
    (named : Directive.at? c.rest = some directive) (starts : directive.opensBlock = true)
    (read : block body directive c = some (node, stop)) : Follows c stop (node.walk command) := by
  obtain ⟨kind, ending, ends, rfl, inside⟩ := block_inside counts follows held starts read
  refine (((follows_opening named starts).trans inside).trans (follows_endIf ends)).congr fun depth _ => ?_
  obtain ⟨_, isNamed, line, text, children⟩ := node
  obtain rfl := kind
  rfl

/-! Statements. -/

theorem lineDirective_idle {directive : Directive} {found : Node × Cursor}
    (read : lineDirective directive c = some found) : found.1.isIdle = true := by
  cases directive <;> simp only [lineDirective] at read
  case error | warn | warning | message =>
    obtain rfl := Option.some.inj read
    rfl
  case inclusion | search =>
    obtain ⟨node, taken, rfl⟩ := Option.map_eq_some_iff.1 read
    simp [Node.isIdle, pathDirective_kind taken]
  case undef =>
    obtain ⟨⟨node, left⟩, taken, rfl⟩ := Option.map_eq_some_iff.1 read
    simp only [undef] at taken
    split at taken
    · cases taken
    · split at taken
      · obtain ⟨rfl, -⟩ := Prod.mk.inj (Option.some.inj taken)
        rfl
      · cases taken
  all_goals cases read

theorem assignment_idle {line : Nat} {here : Text} (read : assignment line here = some node) :
    node.isIdle = true := by
  simp only [assignment] at read
  split at read
  · cases read
  · obtain ⟨found, -, rfl⟩ := Option.map_eq_some_iff.1 read
    rfl

theorem follows_getD {read : Option (Node × Cursor)} {fallback : Node × Cursor}
    (taken : ∀ found, read = some found → Follows c found.2 (found.1.walk command))
    (unread : Follows c fallback.2 (fallback.1.walk command)) :
    Follows c (read.getD fallback).2 ((read.getD fallback).1.walk command) := by
  cases read with
  | none => exact unread
  | some found => exact taken found rfl

theorem statement_follows (counts : Counts good command)
    (follows : ReadsFollowing good command body) (held : good c.rest) (opens : Opens c first)
    (inside : Directive.at? c.rest ≠ some .endIf) :
    Follows c (statement body c).2 ((statement body c).1.walk command) := by
  by_cases starts : ∃ directive, Directive.at? c.rest = some directive ∧ directive.opensBlock = true
  · obtain ⟨directive, named, starts⟩ := starts
    rw [statement_opening named starts]
    obtain ⟨ending, moves⟩ := skipBlock_moves 0 c
    exact follows_getD (fun _ read => block_follows counts follows held named starts read)
      ((balanced_skipBlock named starts).follows ⟨_, moves⟩ rfl)
  -- Any other statement starts on a line that neither opens nor closes a block.
  · have plain := opens.depthAfter_plain fun directive named =>
      ⟨by simpa using fun opening => starts ⟨directive, named, opening⟩,
        fun same => inside (same ▸ named)⟩
    have line {node : Node} (idle : node.isIdle = true) : Follows c c.lineEnd (node.walk command) :=
      (balanced_lineEnd plain).follows ⟨_, c.moves_lineEnd⟩ idle
    unfold statement
    split
    · exact line rfl
    · unfold directiveStatement
      split
      · exact line rfl
      · next directive named =>
        rw [if_neg fun opening => starts ⟨directive, named, opening⟩]
        refine follows_getD (fun _ read => ?_) (line rfl)
        obtain ⟨_, moves, -⟩ := (lineDirective_passes opens named read).span
        exact (lineDirective_balanced plain read).follows ⟨_, moves⟩ (lineDirective_idle read)
    · exact follows_getD (fun _ read => rule_follows counts held plain read) (line rfl)
    · unfold assignmentOrRule
      split
      · exact line rfl
      · split
        · exact follows_getD (fun _ read => rule_follows counts held plain read) (line rfl)
        · refine follows_getD (fun found read => ?_) (line rfl)
          obtain ⟨node, taken, rfl⟩ := Option.map_eq_some_iff.1 read
          exact line (assignment_idle taken)

/-! Lists of statements. -/

/-- The reader of bodies that statements are read with. -/
def bodies (limit : Nat) : BodyReader := fun ends start => bodyOf start (spans limit ends start)

theorem bodies_placed (limit : Nat) : ReadsBodiesPlaced (bodies limit) :=
  reads_bodyOf (spans_runs limit)

theorem spans_stops {limit : Nat} {ends : List Directive} (some_left : limit ≠ 0)
    (stops : c.skipBlank.rest = [] ∨ (Directive.at? c.skipBlank.rest).any (ends.contains ·)) :
    spans limit ends c = ([], c.skipBlank) := by
  obtain ⟨limit, rfl⟩ := Nat.exists_eq_succ_of_ne_zero some_left
  simp only [spans, if_pos stops]

theorem spans_going {limit : Nat} {ends : List Directive}
    (going : ¬(c.skipBlank.rest = [] ∨ (Directive.at? c.skipBlank.rest).any (ends.contains ·))) :
    spans (limit + 1) ends c =
      (⟨(statement (bodies limit) c.skipBlank).1, c.skipBlank, (statement (bodies limit) c.skipBlank).2⟩ ::
        (spans limit ends (statement (bodies limit) c.skipBlank).2).1,
        (spans limit ends (statement (bodies limit) c.skipBlank).2).2) := by
  simp only [spans, if_neg going]
  rfl

/-- Joining unread spans changes nothing for the walk. -/
theorem walks_joinErrors (found : List Span) (depth : Nat) :
    Node.walks command ((joinErrors found).map (·.node)) depth =
      Node.walks command (found.map (·.node)) depth := by
  induction found generalizing depth with
  | nil => rfl
  | cons span rest ih =>
    rw [List.map_cons, Node.walks, ← funext ih, joinErrors]
    cases joinErrors rest with
    | nil => rfl
    | cons next more =>
      have idle {span : Span} (unread : span.node.kind = .error) : span.node.isIdle = true := by
        simp [Node.isIdle, unread]
      by_cases both : span.node.kind = .error ∧ next.node.kind = .error
      · simp only [if_pos both, List.map_cons, Node.walks, Node.walk_idle (idle both.1),
          Node.walk_idle (idle both.2), Option.bind_some]
        rfl
      · simp only [if_neg both]
        rfl

/-- The statements read from a place on, by induction on the limit. -/
theorem spans_follow (counts : Counts good command) (limit : Nat) {ends : List Directive}
    (closes : .endIf ∈ ends) (c : Cursor) (held : good c.rest) :
    Follows c (spans limit ends c).2
      (Node.walks command ((spans limit ends c).1.map (·.node))) := by
  induction limit generalizing ends c with
  | zero => exact .of_balanced (.refl c) ⟨[], .none c⟩
  | succ limit ih =>
    have gap := follows_skipBlank c
    have further := counts.onward gap held
    rw [spans]
    split
    · exact gap
    · next going =>
      obtain ⟨first, opens⟩ := opens_skipBlank fun finished => going (.inl finished)
      have inside : Directive.at? c.skipBlank.rest ≠ some .endIf := fun named =>
        going (.inr (by simp [named, closes]))
      have follows : ReadsFollowing good command (bodies limit) := fun ends start closes held =>
        (ih closes start held).congr fun depth _ => (walks_joinErrors _ depth).symm
      have taken := statement_follows counts follows further opens inside
      exact (gap.trans taken).trans (ih closes _ (counts.onward taken further))

theorem bodies_follow (counts : Counts good command) (limit : Nat) :
    ReadsFollowing good command (bodies limit) := fun _ start closes held =>
  (spans_follow counts limit closes start held).congr fun depth _ => (walks_joinErrors _ depth).symm

end Source

end BmakeZig
