import BmakeZig.Proofs.Source.Append.Unit
import BmakeZig.Proofs.Source.Watched.Block

/-! Units under watch. Statements are listed as they are read; an unread one behind another widens the
one that is listed already. -/
namespace BmakeZig.Source

namespace Watched

/-- The statements read so far and, when the last of them could not be read, the head at its start. -/
structure Listing where
  nodes : List Node
  unreadFrom : Option Head

/-- Lists a statement that starts at the one head and ends at the other. -/
def enlist (listing : Listing) (start : Head) (node : Node) : Watched Listing := do
  if node.kind ≠ .error then return ⟨listing.nodes ++ [node], none⟩
  else
    match listing.unreadFrom with
    | none => return ⟨listing.nodes ++ [node], some start⟩
    | some first => return ⟨listing.nodes.dropLast ++ [← covered .error first []], some first⟩

def statementRound (body : List Directive → Watched Node) (ends : List Directive) (listing : Listing) :
    Watched (Listing ⊕ List Node) := do
  skipBlank
  let ahead ← unread
  if ahead = [] ∨ (Directive.at? ahead).any (ends.contains ·) then return .inr listing.nodes
  else
    let start ← get
    return .inl (← enlist listing start (← statement body))

/-- A body in which blocks are nested no deeper than that. -/
def bodyWithin : Nat → List Directive → Watched Node
  | 0, _ => throw (.breach .endless)
  | depth + 1, ends => do
    let start ← get
    let nodes ← loop (statementRound (bodyWithin depth) ends) ⟨[], none⟩
    covered .body start nodes

def unit : Watched Node := do
  let source ← unread
  let nodes ← loop (statementRound (bodyWithin (source.length + 1)) []) ⟨[], none⟩
  return .branch .sourceFile 1 source nodes

end Watched

/-! Joining, one statement after the other. -/

/-- The statement with one behind it that ends at the place, neither of them read. -/
def Span.widen (span : Span) (stop : Cursor) : Span :=
  ⟨.leaf .error span.start.line (span.start.upTo stop), span.start, stop⟩

theorem joinErrors_widen (first span : Span) (unread : first.node.kind = .error)
    (unread' : span.node.kind = .error) (rest : List Span) :
    joinErrors (first :: span :: rest) = joinErrors (first.widen span.stop :: rest) := by
  rw [joinErrors, joinErrors, joinErrors]
  cases joinErrors rest with
  | nil => simp [unread, unread', Span.widen]
  | cons next more =>
    by_cases joined : next.node.kind = .error <;>
      simp [joined, unread, unread', Span.widen, Node.leaf]

theorem joinErrors_readable {span : Span} (readable : span.node.kind ≠ .error) (before : Option Span)
    (rest : List Span) :
    joinErrors (before.toList ++ span :: rest) = before.toList ++ span :: joinErrors rest := by
  have alone : joinErrors (before.toList ++ [span]) = before.toList ++ [span] := by
    cases before <;> simp [joinErrors, readable]
  have apart : ∀ last ∈ (before.toList ++ [span]).getLast?, last.node.kind ≠ .error := by
    simpa using readable
  rw [List.append_cons, joinErrors_append apart, alone, List.append_assoc, List.singleton_append]

namespace Watched

variable {source : Text} {c stop : Cursor} {depth : Nat} {before : List Node}
  {pending : Option Span}

/-! Listing. -/

/-- The last statement could not be read. It starts in the source, not behind the place. -/
structure Pending (source : Text) (c : Cursor) (span : Span) : Prop where
  unread : span.node.kind = .error
  start : span.start.In source
  later : c.rest.length ≤ span.start.rest.length

/-- Statements that stay as they are, and one that may still grow. -/
def listed (source : Text) (before : List Node) (pending : Option Span) : Listing :=
  ⟨before ++ pending.toList.map (·.node), pending.map fun span => span.start.head source⟩

/-- The nodes that come of what is listed and the statements that follow. -/
def nodesOf (before : List Node) (pending : Option Span) (rest : List Span) : List Node :=
  before ++ (joinErrors (pending.toList ++ rest)).map (·.node)

/-- A statement is listed without a change to what comes of it and those that follow. -/
theorem leads_enlist (before : List Node) (inside : c.In source) (there : stop.In source)
    (later : stop.rest.length ≤ c.rest.length) (held : ∀ span ∈ pending, Pending source c span)
    (node : Node) :
    ∃ before' pending', (∀ span ∈ pending', Pending source stop span) ∧
      Leads source (enlist (listed source before pending) (c.head source) node) stop
        (listed source before' pending') stop ∧
      ∀ rest, nodesOf before' pending' rest = nodesOf before pending (⟨node, c, stop⟩ :: rest) := by
  by_cases readable : node.kind ≠ .error
  · refine ⟨before ++ pending.toList.map (·.node) ++ [node], none, by simp, ?_, fun rest => ?_⟩
    · rw [enlist, if_pos readable]
      simpa [listed] using leads_pure there _
    · rw [nodesOf, nodesOf, joinErrors_readable readable]
      simp
  · have unread : node.kind = .error := not_not.1 readable
    cases pending with
    | none =>
      refine ⟨before, some ⟨node, c, stop⟩, by simpa using ⟨unread, inside, later⟩, ?_, fun rest => rfl⟩
      rw [enlist, if_neg readable]
      simpa [listed] using leads_pure there _
    | some first =>
      obtain ⟨failed, start, ahead⟩ := held first rfl
      have wide : Pending source stop (first.widen stop) := ⟨rfl, start, later.trans ahead⟩
      refine ⟨before, some (first.widen stop), by simpa using wide, ?_, fun rest => ?_⟩
      · rw [enlist, if_neg readable]
        have cover := leads_covered start (start.reaches there (later.trans ahead)) .error []
        refine Comes.bind cover fun there => ?_
        simpa [listed, Span.widen, Node.leaf, Node.branch] using leads_pure there _
      · have same := joinErrors_widen first ⟨node, c, stop⟩ failed unread rest
        simp only [nodesOf, Option.toList_some, List.singleton_append, same]

/-! Statements, and the bodies in them. -/

/-- Bodies nested no deeper than that are read as with any limit above what is unread. -/
def TracksNested (source : Text) (depth : Nat) : Prop :=
  ∀ ⦃size limit : Nat⦄, size ≤ depth → size ≤ limit →
    TracksBodies source size (bodyWithin depth) (bodies limit)

/-- The rounds over the statements, by induction on the limit. Every one that goes on has read a
statement, which takes a character. -/
theorem leads_statements (nested : TracksNested source depth) (limit : Nat) {limit' : Nat}
    (ends : List Directive) (before : List Node) (pending : Option Span) (inside : c.In source)
    (fits : c.rest.length ≤ depth) (enough : c.rest.length < limit) (enough' : c.rest.length < limit')
    (held : ∀ span ∈ pending, Pending source c span) :
    Leads source (rounds (statementRound (bodyWithin depth) ends) limit' (listed source before pending)) c
      (nodesOf before pending (spans limit ends c).1) (spans limit ends c).2 := by
  induction limit generalizing c limit' before pending with
  | zero => omega
  | succ limit ih =>
    have nearer := c.moves_skipBlank.later
    by_cases stops : c.skipBlank.rest = [] ∨ (Directive.at? c.skipBlank.rest).any (ends.contains ·)
    · rw [spans_stops (Nat.succ_ne_zero limit) stops]
      refine comes_rounds_stop (by omega) inside ((leads_skipBlank inside).bind fun inside => ?_)
      refine (leads_unread inside).bind fun inside => ?_
      rw [if_pos stops]
      have all : nodesOf before pending [] = (listed source before pending).nodes := by
        cases pending <;> rfl
      rw [all]
      exact leads_pure inside _
    · have there := inside.moves c.moves_skipBlank
      have tracks : TracksBodies source c.skipBlank.rest.length (bodyWithin depth) (bodies limit) :=
        nested (by omega) (by omega)
      have read := leads_statement tracks there (Nat.le_refl _)
      obtain ⟨first, opens⟩ := opens_skipBlank fun finished => stops (.inl finished)
      have shorter := (statement_passes (bodies_placed limit) opens).shorter
      rw [spans_going stops]
      generalize Source.statement (bodies limit) c.skipBlank = found at read shorter ⊢
      have ahead : ∀ span ∈ pending, Pending source c.skipBlank span := fun span member =>
        ⟨(held span member).unread, (held span member).start, nearer.trans (held span member).later⟩
      obtain ⟨before', pending', held', turn, same⟩ :=
        leads_enlist before there read.inside (Nat.le_of_lt shorter) ahead found.1
      have round : Leads source (statementRound (bodyWithin depth) ends (listed source before pending)) c
          (.inl (listed source before' pending')) found.2 := by
        refine (leads_skipBlank inside).bind fun inside => (leads_unread inside).bind fun inside => ?_
        rw [if_neg stops]
        refine (leads_get inside).bind fun inside => read.bind fun inside => ?_
        exact turn.bind fun inside => leads_pure inside _
      have rest := ih before' pending' read.inside (by omega) (by omega) (by omega : _ < limit' - 1) held'
      rw [same] at rest
      exact comes_rounds_next (by omega) inside round (by omega) rest

theorem tracksNested (source : Text) (depth : Nat) : TracksNested source depth := by
  induction depth with
  | zero => exact fun size limit none _ ends c _ short => by omega
  | succ depth ih =>
    intro size limit shallow enough ends c inside short
    have read := comes_loop inside (leads_statements ih limit ends [] none inside (by omega) (by omega)
      (Nat.lt_succ_self _) (by simp))
    refine (leads_get inside).bind fun inside => Comes.bind read fun there => ?_
    exact leads_covered inside (inside.reaches there (Comes.later read)) .body _

theorem leads_unit (source : Text) :
    Leads source unit (Cursor.start source) (parse source) ⟨1 + source.count '\n', []⟩ := by
  have inside := Cursor.in_start source
  have read := comes_loop inside (leads_statements (tracksNested source (source.length + 1))
    (source.length + 1) [] [] none inside (Nat.le_succ _)
    (Nat.lt_succ_self _) (Nat.lt_succ_self _) (by simp))
  have finished : (spans (source.length + 1) [] (Cursor.start source)).2.rest = [] :=
    spans_over (Nat.lt_succ_self source.length)
  obtain ⟨passed, whole, -, line⟩ := read.inside.split
  rw [finished, List.append_nil] at whole
  rw [← whole] at line
  have last : (spans (source.length + 1) [] (Cursor.start source)).2 = ⟨1 + source.count '\n', []⟩ :=
    congrArg₂ Cursor.mk line finished
  rw [last] at read
  exact (leads_unread inside).bind fun inside => Comes.bind read fun there => leads_pure there _

end Watched

/-- Under watch a source is read to its end, to the tree it has. In no source does the head leave the source
or count its lines wrong, no text is cut out that starts behind its end or lies outside, no phrase goes on
behind the end of its line, and no loop has a round that leaves the head where it was or goes round more
often than there are characters: each of these would be a breach, and the head would come no further. -/
theorem parse_watched (source : Text) :
    Watched.unit ⟨source, 0, 1⟩ = .ok (parse source) ⟨source, source.length, 1 + source.count '\n'⟩ := by
  cases Watched.leads_unit source with
  | read run _ _ =>
    have start : (Cursor.start source).head source = ⟨source, 0, 1⟩ := by simp [Cursor.head, Cursor.start]
    rw [start] at run
    exact run

end BmakeZig.Source
