import BmakeZig.Source.Rule

/-! Conditional blocks and lists of statements. A block that cannot be read, in its header, in one
of its clauses or for want of an end, is kept as one unread span up to the matching end. -/
namespace BmakeZig.Source

/-- Reads statements up to one of the given directives or the end of the source, as a body. -/
abbrev BodyReader := List Directive → Cursor → Node × Cursor

def clauseEnds : List Directive :=
  [.elseIf, .otherwise, .endIf]

/-- The condition of a block, which must be all there is on its line. -/
def blockHeader (directive : Directive) (line : Nat) (here : Text) : Option Node :=
  let argument := Text.skipSpaces (directive.argument here)
  let read : Option (Node × Text) :=
    match directive with
    | .ifHolds => condition line argument
    | .ifDefined | .ifUndefined =>
      (Text.name? argument).map fun found => (Node.leaf .identifier line found.1, found.2)
    | _ =>
      let path := phrase .path line argument
      if path.text = [] then none else some (path, [])
  (read.filter fun found => atLineEnd found.2).map (·.1)

/-- The clauses behind the first body, and the end of the block. `limit` bounds their number. -/
def clauses (body : BodyReader) : Nat → Cursor → Option (List Node × Cursor)
  | 0, _ => none
  | limit + 1, before =>
    let c := before.skipBlank
    match Directive.at? c.rest with
    | some .elseIf =>
      let read := condition c.line (Directive.elseIf.argument c.here)
      match read.filter fun found => atLineEnd found.2 with
      | none => none
      | some (test, _) =>
        let (inner, stop) := body clauseEnds c.nextLine
        let clause := Node.branch .elifClause c.line (c.upTo stop)
          [Node.token c.line Directive.elseIf.spelling, test, inner]
        (clauses body limit stop).map fun more => (clause :: more.1, more.2)
    | some .otherwise =>
      if atLineEnd (Directive.otherwise.argument c.here) then
        -- Further clause words are no statement here, so they end up as unread lines.
        let (inner, stop) := body [.endIf] c.nextLine
        let clause := Node.branch .elseClause c.line (c.upTo stop)
          [Node.token c.line Directive.otherwise.spelling, inner]
        (clauses body limit stop).map fun more => (clause :: more.1, more.2)
      else none
    | some .endIf =>
      some ([Node.token c.line Directive.endIf.spelling],
        c.within (Directive.endIf.argument c.here))
    | _ => none

/-- A whole block. What follows its end on the same line is passed over. -/
def block (body : BodyReader) (directive : Directive) (c : Cursor) : Option (Node × Cursor) :=
  match blockHeader directive c.line c.here with
  | none => none
  | some test =>
    let (inner, stop) := body clauseEnds c.nextLine
    (clauses body (stop.rest.length + 1) stop).map fun (more, last) =>
      (Node.branch .conditional c.line (c.upTo last)
        (Node.token c.line directive.spelling :: test :: inner :: more), last.lineEnd)

/-- How many blocks are open behind a line, when `depth` are open before it. -/
def depthAfter (depth : Nat) (here : Text) : Nat :=
  match Directive.at? (Text.trimStart here) with
  | some directive =>
    if directive.opensBlock then depth + 1
    else if directive = .endIf then depth - 1
    else depth
  | none => depth

/-- The end of the line on which the last open block ends, or the end of the source. -/
def skipBlock (depth : Nat) (c : Cursor) : Cursor :=
  if depthAfter depth c.here = 0 then c.lineEnd
  else
    match found : c.below with
    | [] => c.lineEnd
    | _ :: rest =>
      have := Cursor.length_of_below found
      skipBlock (depthAfter depth c.here) ⟨c.line + 1, rest⟩
termination_by c.rest.length

def errorBlock (c : Cursor) : Node × Cursor :=
  let stop := skipBlock 0 c
  (Node.leaf .error c.line (c.upTo stop), stop)

/-- A directive that stands on one line. -/
def lineDirective (directive : Directive) (c : Cursor) : Option (Node × Cursor) :=
  match directive with
  | .error | .warn | .warning | .message =>
    some (diagnostic directive c.line c.here, c.lineEnd)
  | .inclusion => (pathDirective .inclusion directive c.line c.here).map (·, c.lineEnd)
  | .search => (pathDirective .search directive c.line c.here).map (·, c.lineEnd)
  | .undef => (undef c.line c.here).map fun found => (found.1, c.within found.2)
  | _ => none

def directiveStatement (body : BodyReader) (c : Cursor) : Node × Cursor :=
  match Directive.at? c.rest with
  | none => errorLine c
  | some directive =>
    if directive.opensBlock then (block body directive c).getD (errorBlock c)
    else (lineDirective directive c).getD (errorLine c)

/-- An assignment, or the rule for every build where a colon follows its target. -/
def assignmentOrRule (c : Cursor) : Node × Cursor :=
  match Text.name? c.here with
  | none => errorLine c
  | some (name, after) =>
    if name = alwaysTarget ∧ (Text.skipSpaces after).head? = some ':' then (rule c).getD (errorLine c)
    else ((assignment c.line c.here).map (·, c.lineEnd)).getD (errorLine c)

/-- The statement at a place that is not blank. -/
def statement (body : BodyReader) (c : Cursor) : Node × Cursor :=
  match c.rest with
  | '#' :: _ => (comment c.line c.here, c.lineEnd)
  | '%' :: _ => directiveStatement body c
  | '.' :: _ => (rule c).getD (errorLine c)
  | _ => assignmentOrRule c

end BmakeZig.Source
