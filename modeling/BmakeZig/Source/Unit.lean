import BmakeZig.Source.Block

/-! Whole units. Statements are read with the places where they start and stop, so that unread spans
that follow one another can be joined into one. -/
namespace BmakeZig.Source

/-- A statement with the places where it starts and stops. -/
structure Span where
  node : Node
  start : Cursor
  stop : Cursor

/-- Joins neighbouring unread spans. -/
def joinErrors : List Span → List Span
  | [] => []
  | span :: rest =>
    match joinErrors rest with
    | [] => [span]
    | next :: more =>
      if span.node.kind = .error ∧ next.node.kind = .error then
        let node := Node.leaf .error span.start.line (span.start.upTo next.stop)
        ⟨node, span.start, next.stop⟩ :: more
      else span :: next :: more

/-- The statements among `spans` as the body that starts at `c`. -/
def bodyOf (c : Cursor) (spans : List Span × Cursor) : Node × Cursor :=
  (Node.branch .body c.line (c.upTo spans.2) ((joinErrors spans.1).map (·.node)), spans.2)

/-- Statements up to one of the directives in `ends` or the end of the source. Every statement takes
at least one character, so a limit above the length of the source is never reached. -/
def spans : Nat → List Directive → Cursor → List Span × Cursor
  | 0, _, c => ([], c)
  | limit + 1, ends, before =>
    let c := before.skipBlank
    if c.rest = [] ∨ (Directive.at? c.rest).any (ends.contains ·) then ([], c)
    else
      let (node, stop) := statement (fun ends start => bodyOf start (spans limit ends start)) c
      let (more, last) := spans limit ends stop
      (⟨node, c, stop⟩ :: more, last)

/-- The tree of a unit. -/
def parse (source : Text) : Node :=
  let found := spans (source.length + 1) [] (Cursor.start source)
  Node.branch .sourceFile 1 source ((joinErrors found.1).map (·.node))

end BmakeZig.Source
