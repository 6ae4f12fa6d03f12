import BmakeZig.Proofs.Source.Watched.Condition
import Mathlib.Data.List.Find

/-! Statements of one line under watch. -/
namespace BmakeZig.Source

namespace Watched

/-- What stands below a line on which nothing is left. -/
def below (reader : Watched Node) : Watched Node := do
  if ← atLineEnd then
    toNextLine
    reader
  else throw .unread

def comment : Watched Node := do
  let start ← get
  toLineEnd
  trimmed .comment start []

/-- The rest of the line as a span that could not be read. -/
def errorLine : Watched Node := do
  let start ← get
  toLineEnd
  covered .error start []

def diagnostic (directive : Directive) : Watched Node := do
  let start ← get
  let marker ← token directive.spelling
  skipSpaces
  let message ← phrase .message
  covered .diagnostic start [marker, message]

def pathDirective (kind : Kind) (directive : Directive) : Watched Node := do
  let start ← get
  let keyword ← token directive.spelling
  skipSpaces
  let path ← phrase .path
  if path.text = [] then throw .unread else covered kind start [keyword, path]

def undef : Watched Node := do
  let start ← get
  let keyword ← token Directive.undef.spelling
  skipSpaces
  let name ← named .identifier
  let node ← covered .undef start [keyword, name]
  if ← atLineEnd then return node else throw .unread

def lineDirective (directive : Directive) : Watched Node :=
  match directive with
  | .error | .warn | .warning | .message => diagnostic directive
  | .inclusion => pathDirective .inclusion directive
  | .search => pathDirective .search directive
  | .undef => undef
  | _ => throw .unread

/-- An assignment from its operator on. -/
def assigned (start : Head) (name : Node) : Watched Node := do
  let ahead ← unread
  match operators.find? fun operator => operator.spelling.isPrefixOf ahead with
  | none => throw .unread
  | some operator =>
    let sign ← token operator.spelling
    skipSpaces
    let value ← phrase .value
    trimmed (.assignment operator.appends operator.expands) start [name, sign, value]

variable {source left behind : Text} {c : Cursor} {directive : Directive}

theorem comes_below {reader : Watched Node} {outcome : Option (Node × Cursor)}
    (inside : (c.within left).In source) (ending : c.lineEnd.In source)
    (read : c.nextLine.In source → Comes source reader c.nextLine outcome) :
    Comes source (below reader) (c.within left) (if Source.atLineEnd left then outcome else none) := by
  refine (leads_atLineEnd (newline_not_mem_left inside ending) inside).bind fun inside => ?_
  split
  · exact (leads_toNextLine_within inside ending).bind read
  · exact fails_throw source _

theorem leads_comment (inside : (c.within left).In source) (ending : c.lineEnd.In source) :
    Leads source comment (c.within left) (Source.comment c.line left) c.lineEnd := by
  have whole := moves_within_lineEnd (newline_not_mem_left inside ending) c
  exact (leads_get inside).bind fun started => (leads_toLineEnd_within started ending).bind fun _ =>
    leads_trimmed started whole .comment []

theorem leads_errorLine (inside : c.In source) :
    Leads source errorLine c (Source.errorLine c).1 (Source.errorLine c).2 :=
  (leads_get inside).bind fun started => (leads_toLineEnd started).bind fun _ =>
    leads_covered started c.moves_lineEnd .error []

/-! Directives. -/

theorem leads_directive (named : Directive.at? c.rest = some directive) (inside : c.In source) :
    Leads source (token directive.spelling) c (.token c.line directive.spelling)
      (c.within (directive.argument c.here)) :=
  leads_token inside (Cursor.moves_within (here_directive named))

theorem leads_diagnostic (named : Directive.at? c.rest = some directive) (inside : c.In source) :
    Leads source (diagnostic directive) c (Source.diagnostic directive c.line c.here) c.lineEnd := by
  have ending := inside.moves c.moves_lineEnd
  refine (leads_get inside).bind fun started => (leads_directive named inside).bind fun inside => ?_
  refine (leads_skipSpaces inside).bind fun inside => (leads_phrase .message inside ending).bind fun _ => ?_
  exact leads_covered started c.moves_lineEnd .diagnostic _

theorem comes_pathDirective (kind : Kind) (named : Directive.at? c.rest = some directive)
    (inside : c.In source) :
    Comes source (pathDirective kind directive) c
      ((Source.pathDirective kind directive c.line c.here).map (·, c.lineEnd)) := by
  have ending := inside.moves c.moves_lineEnd
  refine (leads_get inside).bind fun started => (leads_directive named inside).bind fun inside => ?_
  refine (leads_skipSpaces inside).bind fun inside => (leads_phrase .path inside ending).bind fun _ => ?_
  unfold Source.pathDirective
  dsimp only
  split
  · exact fails_throw source _
  · exact leads_covered started c.moves_lineEnd kind _

theorem comes_undef (named : Directive.at? c.rest = some .undef) (inside : c.In source) :
    Comes source undef c
      ((Source.undef c.line c.here).map fun found => (found.1, c.within found.2)) := by
  have ending := inside.moves c.moves_lineEnd
  refine (leads_get inside).bind fun started => (leads_directive named inside).bind fun inside => ?_
  refine (leads_skipSpaces inside).bind fun inside => ?_
  unfold Source.undef
  cases found : Text.name? (Text.skipSpaces (Directive.undef.argument c.here)) with
  | none => exact Comes.bindFails (fails_named .identifier found inside)
  | some read =>
    obtain ⟨name, left⟩ := read
    have later : left.length ≤ c.here.length := by
      have named := Text.length_of_name? found
      have skipped := Text.length_skipSpaces_le (Directive.undef.argument c.here)
      have dropped : (Directive.undef.argument c.here).length ≤ c.here.length := by simp [Directive.argument]
      omega
    have start : (c.within c.here).In source := by rwa [within_here]
    refine (leads_named .identifier found inside).bind fun inside => ?_
    have node := leads_covered_within start inside later .undef
      [.token c.line Directive.undef.spelling, .leaf .identifier c.line name]
    rw [within_here] at node
    refine node.bind fun inside => ?_
    refine (leads_atLineEnd (newline_not_mem_left inside ending) inside).bind fun inside => ?_
    dsimp only
    split
    · exact leads_pure inside _
    · exact fails_throw source _

theorem comes_lineDirective (named : Directive.at? c.rest = some directive) (inside : c.In source) :
    Comes source (lineDirective directive) c (Source.lineDirective directive c) := by
  unfold lineDirective Source.lineDirective
  cases directive
  case error | warn | warning | message => exact leads_diagnostic named inside
  case inclusion | search => exact comes_pathDirective _ named inside
  case undef => exact comes_undef named inside
  all_goals exact fails_throw source c

/-! Assignments. -/

theorem operator_within (c : Cursor) (left : Text) :
    (operators.find? fun operator => operator.spelling.isPrefixOf (c.within left).rest) =
      operators.find? fun operator => operator.spelling.isPrefixOf left := by
  have single : ∀ operator ∈ operators, '\n' ∉ operator.spelling := by
    simp [operators]
  exact List.find?_congr fun operator member => isPrefixOf_within (single operator member) c left

/-- The first operator that stands next is the one that is read. -/
theorem operator_split (text : Text) :
    (operator? text = none ∧ (operators.find? fun operator => operator.spelling.isPrefixOf text) = none) ∨
      ∃ operator rest, operator? text = some (operator, rest) ∧
        (operators.find? fun operator => operator.spelling.isPrefixOf text) = some operator := by
  unfold operator?
  induction operators with
  | nil => exact .inl ⟨rfl, rfl⟩
  | cons operator others ih =>
    rw [List.findSome?_cons, List.find?_cons]
    cases found : Text.after? operator.spelling text with
    | none =>
      have other : operator.spelling.isPrefixOf text = false := by
        rw [← Bool.not_eq_true, List.isPrefixOf_iff_prefix]
        exact after?_eq_none_iff.1 found
      rw [other]
      exact ih
    | some rest =>
      have stands : operator.spelling.isPrefixOf text = true := by
        rw [Text.eq_append_of_after? found]
        simp
      rw [stands]
      exact .inr ⟨operator, rest, rfl, rfl⟩

theorem comes_assigned {name : Text} {after : Text} (found : Text.name? c.here = some (name, after))
    (started : c.In source) (inside : (c.within (Text.skipSpaces after)).In source) :
    Comes source (assigned (c.head source) (.leaf .identifier c.line name)) (c.within (Text.skipSpaces after))
      ((assignment c.line c.here).map (·, c.lineEnd)) := by
  have ending := started.moves c.moves_lineEnd
  refine (leads_unread inside).bind fun inside => ?_
  rw [operator_within]
  simp only [assignment, found]
  rcases operator_split (Text.skipSpaces after) with ⟨none, nothing⟩ | ⟨operator, rest, taken, first⟩
  · rw [none, nothing]
    exact fails_throw source _
  · rw [taken, first]
    have split := (eq_append_of_operator? taken).1
    rw [split] at inside ⊢
    have single : '\n' ∉ operator.spelling ++ rest := newline_not_mem_left inside ending
    have sign := moves_within_append (fun member => single (List.mem_append_left _ member)) c rest
    refine (leads_token inside sign).bind fun inside => (leads_skipSpaces inside).bind fun inside => ?_
    refine (leads_phrase .value inside ending).bind fun _ => ?_
    exact leads_trimmed started c.moves_lineEnd _ _

end Watched

end BmakeZig.Source
