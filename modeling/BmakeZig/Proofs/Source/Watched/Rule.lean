import BmakeZig.Proofs.Source.Echo.Rule
import BmakeZig.Proofs.Source.Watched.Line

/-! Rules under watch. The search for the next line of a body looks ahead without moving the head: it goes
from one line to the next by offsets, and the head follows once a line has been found. -/
namespace BmakeZig.Source

namespace Watched

def modifierRound (modifiers : List Node) : Watched (List Node ⊕ List Node) := do
  let start ← get
  if (← unread).head?.any isModifier then
    advance 1
    return .inl (modifiers ++ [← covered .commandMod start []])
  else return .inr modifiers

def builtin : Watched (List Node) := do
  let start ← get
  match builtin? (← unread) with
  | none => return []
  | some (word, _) =>
    advance word.length
    return [← covered .builtinCommand start []]

def command : Watched Node := do
  let start ← get
  let modifiers ← loop modifierRound []
  let builtin ← builtin
  skipSpaces
  let words ← phrase .command
  trimmed .buildCommand start (modifiers ++ builtin ++ [words])

def bodyEntry : Watched Node := do
  if ← peek ['#'] then comment else command

def isIndented (line : Text) : Bool :=
  line.head?.any fun d => d == ' ' || d == '\t'

/-- The start of the first line from an offset on that is not blank, if that line is indented. At most
`limit` lines are looked at. -/
def probe : Nat → Nat → Watched (Option Nat)
  | 0, _ => throw (.breach .endless)
  | limit + 1, offset => do
    let source := (← get).source
    let ahead ← cut offset source.length
    let stop := offset + (ahead.takeWhile (· != '\n')).length
    let line ← cut offset stop
    if line.all Text.isBlank then
      if source.length ≤ stop then return none else probe limit (stop + 1)
    else return if isIndented line then some offset else none

def bodyRound (entries : List Node) : Watched (List Node ⊕ List Node) := do
  let here ← get
  match ← probe (here.source.length + 1) here.offset with
  | none => return .inr entries
  | some offset =>
    advanceTo offset
    skipSpaces
    let entry ← bodyEntry
    newline
    return .inl (entries ++ [entry])

/-- The body of a rule. One without entries stands at the end of the header. -/
def ruleBody (headerEnd : Nat) : Watched Node := do
  let start ← get
  let entries ← loop bodyRound []
  if entries = [] then return .branch .ruleBody start.line (← cut headerEnd headerEnd) entries
  else trimmed .ruleBody start entries

/-- What stands in front of the first colon of the line. -/
def declaration : Watched Node := do
  let start ← get
  match Text.cutAt? ':' (← cut start.offset (← lineEnd)) with
  | none => throw .unread
  | some (front, _) =>
    let declaration := Text.trimEnd front
    if declaration.any Text.isBlank || declaration.contains '=' then throw .unread
    else
      advance declaration.length
      covered .targetDecl start []

def target : Watched Node := do
  let start ← get
  if ← consume alwaysTarget then covered .always start []
  else if ← peek ['.'] then declaration
  else throw .unread

def rule : Watched Node := do
  let start ← get
  let aim ← target
  skipSpaces
  let colon ← token [':']
  let headerEnd := (← get).offset
  let body ← below (ruleBody headerEnd)
  covered .rule start [aim, colon, body]

variable {source left behind : Text} {c d middle : Cursor} {limit : Nat}

/-! Commands. -/

theorem leads_modifiers (nodes : List Node) (enough : left.length < limit)
    (inside : (c.within left).In source) (ending : c.lineEnd.In source) :
    Leads source (rounds modifierRound limit nodes) (c.within left)
      (nodes ++ (left.takeWhile isModifier).map fun d => .leaf .commandMod c.line [d])
      (c.within (left.dropWhile isModifier)) := by
  have some_left : 0 < limit := by omega
  induction left generalizing nodes limit with
  | nil =>
    have none : ¬(c.within []).rest.head?.any isModifier = true := by
      cases found : c.below with
      | nil => simp [Cursor.within, found]
      | cons e rest =>
        obtain rfl := head?_below c e (by rw [found]; rfl)
        simp [Cursor.within, found, isModifier]
    refine comes_rounds_stop some_left inside ((leads_get inside).bind fun inside =>
      (leads_unread inside).bind fun inside => ?_)
    rw [if_neg none, List.takeWhile_nil, List.map_nil, List.append_nil]
    exact leads_pure inside _
  | cons d left ih =>
    by_cases modifier : isModifier d = true
    · have plain : d ≠ '\n' := fun same => newline_not_mem_left inside ending (by simp [same])
      have mark := moves_mark plain c left
      have turn : Leads source (modifierRound nodes) (c.within (d :: left))
          (.inl (nodes ++ [.leaf .commandMod c.line [d]])) (c.within left) := by
        refine (leads_get inside).bind fun started => (leads_unread started).bind fun inside => ?_
        rw [if_pos (by simpa [Cursor.within] using modifier)]
        refine (leads_advance inside mark).bind fun inside => ?_
        exact (leads_covered started mark .commandMod []).bind fun inside => leads_pure inside _
      rw [List.length_cons] at enough
      refine comes_rounds_next some_left inside turn (by simp [Cursor.within]) ?_
      have more := ih (nodes ++ [.leaf .commandMod c.line [d]]) (by omega : _ < limit - 1) turn.inside (by omega)
      rw [List.takeWhile_cons_of_pos modifier, List.dropWhile_cons_of_pos modifier, List.map_cons]
      rwa [← List.append_cons] at more
    · refine comes_rounds_stop some_left inside ((leads_get inside).bind fun inside =>
        (leads_unread inside).bind fun inside => ?_)
      rw [if_neg (by simpa [Cursor.within] using modifier), List.takeWhile_cons_of_neg modifier,
        List.dropWhile_cons_of_neg modifier, List.map_nil, List.append_nil]
      exact leads_pure inside _

theorem builtin?_within (c : Cursor) (left : Text) :
    (builtin? (c.within left).rest).map (·.1) = (builtin? left).map (·.1) := by
  rcases left with _ | ⟨d, left⟩
  · cases found : c.below with
    | nil => simp [Cursor.within, found]
    | cons e rest =>
      obtain rfl := head?_below c e (by rw [found]; rfl)
      simp [Cursor.within, found, builtin?]
  · by_cases tilde : d = '~'
    · subst tilde
      have same := congrArg (Option.map ('~' :: ·)) (Text.name?_append_word c.below_stops left)
      simpa [Cursor.within, builtin?, Option.map_map, Function.comp_def] using same
    · simp [Cursor.within, builtin?, tilde]

theorem leads_builtin_none (inside : (c.within left).In source) (none : builtin? left = none) :
    Leads source builtin (c.within left) [] (c.within left) := by
  have same := builtin?_within c left
  rw [none, Option.map_none, Option.map_eq_none_iff] at same
  refine (leads_get inside).bind fun inside => (leads_unread inside).bind fun inside => ?_
  rw [same]
  exact leads_pure inside _

theorem leads_builtin {word : Text} (inside : (c.within left).In source) (ending : c.lineEnd.In source)
    (found : builtin? left = some (word, behind)) :
    Leads source builtin (c.within left) [.leaf .builtinCommand c.line word] (c.within behind) := by
  have same := builtin?_within c left
  rw [found, Option.map_some, Option.map_eq_some_iff] at same
  obtain ⟨⟨word', rest⟩, read, rfl⟩ := same
  have single := newline_not_mem_left inside ending
  have split : left = word' ++ behind := by
    unfold builtin? at found
    split at found
    · obtain ⟨⟨name, after⟩, named, same⟩ := Option.map_eq_some_iff.1 found
      obtain ⟨rfl, rfl⟩ := Prod.mk.inj same
      rw [Text.name?_eq_append named, List.cons_append]
    · cases found
  subst split
  have moves := moves_within_append (fun member => single (List.mem_append_left _ member)) c behind
  refine (leads_get inside).bind fun started => (leads_unread started).bind fun inside => ?_
  rw [read]
  refine (leads_advance inside moves).bind fun inside => ?_
  exact (leads_covered started moves .builtinCommand []).bind fun inside => leads_pure inside _

theorem leads_command (inside : (c.within left).In source) (ending : c.lineEnd.In source) :
    Leads source command (c.within left) (Source.command c.line left) c.lineEnd := by
  have whole := moves_within_lineEnd (newline_not_mem_left inside ending) c
  have modifiers := leads_modifiers [] (c.length_lt_within left) inside ending
  refine (leads_get inside).bind fun started => (comes_loop started modifiers).bind fun inside => ?_
  simp only [Source.command]
  cases found : builtin? (left.dropWhile isModifier) with
  | none =>
    refine (leads_builtin_none inside found).bind fun inside => (leads_skipSpaces inside).bind fun inside => ?_
    exact (leads_phrase .command inside ending).bind fun _ => leads_trimmed started whole .buildCommand _
  | some read =>
    refine (leads_builtin inside ending found).bind fun inside => (leads_skipSpaces inside).bind fun inside => ?_
    exact (leads_phrase .command inside ending).bind fun _ => leads_trimmed started whole .buildCommand _

theorem leads_bodyEntry (inside : (c.within left).In source) (ending : c.lineEnd.In source) :
    Leads source bodyEntry (c.within left) (Source.bodyEntry c.line left) c.lineEnd := by
  have sign := leads_peek_within (newline_not_mem_mark (show '#' ≠ '\n' by decide)) inside
  unfold Source.bodyEntry
  split
  · refine sign.bind fun inside => ?_
    rw [if_pos (by simp)]
    exact leads_comment inside ending
  · next other =>
    refine sign.bind fun inside => ?_
    rw [if_neg (isPrefixOf_mark other)]
    exact leads_command inside ending

/-! Bodies. -/

theorem bodyLine_filled (filled : ¬c.here.all Text.isBlank = true) :
    bodyLine c = if isIndented c.here then some c else none := by
  have some_here : c.here ≠ [] := fun empty => filled (by simp [empty])
  obtain ⟨d, rest, here⟩ := List.exists_cons_of_ne_nil some_here
  have whole := c.here_append_below
  rw [here, List.cons_append] at whole
  rw [bodyLine, filledLine, if_pos (by simpa using filled), Option.filter_some, here, isIndented]
  congr 2
  split
  · next same => simp [(List.cons.inj (whole.trans same)).1]
  · next same => simp [(List.cons.inj (whole.trans same)).1]
  · next space tab =>
    have noSpace : d ≠ ' ' := fun same => space _ (by rw [← whole, same])
    have noTab : d ≠ '\t' := fun same => tab _ (by rw [← whole, same])
    simp [noSpace, noTab]

theorem leads_probe (here : middle.In source) (inside : c.In source) (enough : c.rest.length < limit) :
    Leads source (probe limit (c.head source).offset) middle
      ((bodyLine c).map fun filled => (filled.head source).offset) middle := by
  induction limit generalizing c with
  | zero => omega
  | succ limit ih =>
    have ending := inside.offset_moves c.moves_lineEnd
    refine (leads_get here).bind fun here => (leads_cut_rest inside here).bind fun here => ?_
    have line := leads_cut inside c.moves_lineEnd here
    rw [ending] at line
    refine line.bind fun here => ?_
    by_cases blank : c.here.all Text.isBlank = true
    · rw [if_pos blank]
      change Comes source (if source.length ≤ (c.head source).offset + c.here.length then pure none
        else probe limit ((c.head source).offset + c.here.length + 1)) middle _
      rw [← ending]
      by_cases last : c.below = []
      · have spent : source.length ≤ (c.lineEnd.head source).offset := by
          simp [Cursor.head, Cursor.lineEnd, last]
        rw [if_pos spent, bodyLine, filledLine_last blank last]
        exact leads_pure here _
      · have next := (inside.moves c.moves_lineEnd).offset_moves (moves_newline last)
        have ahead : ¬source.length ≤ (c.lineEnd.head source).offset := by
          have held := offset_le source c.nextLine
          simp only [List.length_singleton] at next
          omega
        have shorter : c.nextLine.rest.length < c.rest.length :=
          Cursor.length_nextLine_lt fun empty => last (by simp [Cursor.below, empty])
        have further : c.nextLine.In source := (inside.moves c.moves_lineEnd).moves (moves_newline last)
        have more := ih further (by omega)
        rw [if_neg ahead, bodyLine, filledLine_blank blank last, ← bodyLine]
        rwa [next] at more
    · rw [if_neg blank, bodyLine_filled blank]
      split
      · exact leads_pure here _
      · exact leads_pure here _

theorem rest_lt (inside : c.In source) : c.rest.length < source.length + 1 := by
  obtain ⟨passed, whole, -⟩ := inside.split
  rw [whole, List.length_append]
  omega

theorem leads_bodyRound {filled : Cursor} (found : bodyLine c = some filled) (entries : List Node)
    (inside : c.In source) :
    Leads source (bodyRound entries) c
      (.inl (entries ++ [Source.bodyEntry filled.line (Text.skipSpaces filled.here)])) filled.nextLine := by
  obtain ⟨kept, -⟩ := Option.filter_eq_some_iff.1 found
  obtain ⟨⟨skipped, moves⟩, -⟩ := filledLine_moves kept
  have there := inside.moves moves
  have ending := there.moves filled.moves_lineEnd
  have ahead := leads_probe inside inside (rest_lt inside)
  rw [found] at ahead
  refine (leads_get inside).bind fun inside => Comes.bind ahead fun inside => ?_
  refine (leads_advanceTo inside moves).bind fun inside => ?_
  have spaces := leads_skipSpaces (by rwa [within_here] : (filled.within filled.here).In source)
  rw [within_here] at spaces
  refine spaces.bind fun inside => (leads_bodyEntry inside ending).bind fun inside => ?_
  exact (leads_newline inside).bind fun inside => leads_pure inside _

theorem leads_bodyEntries (entries : List Node) (enough : c.rest.length < limit) (inside : c.In source) :
    Leads source (rounds bodyRound limit entries) c (entries ++ (bodyEntries c).1) (bodyEntries c).2 := by
  induction limit generalizing c entries with
  | zero => omega
  | succ limit ih =>
    rw [bodyEntries]
    split
    · next finished =>
      have ahead := leads_probe inside inside (rest_lt inside)
      rw [finished] at ahead
      rw [List.append_nil]
      exact comes_rounds_stop (by omega) inside ((leads_get inside).bind fun inside =>
        Comes.bind ahead fun inside => leads_pure inside _)
    · next filled found =>
      have shorter := length_of_bodyLine found
      have turn := leads_bodyRound found entries inside
      refine comes_rounds_next (by omega) inside turn shorter ?_
      have more := ih (entries ++ [Source.bodyEntry filled.line (Text.skipSpaces filled.here)])
        (by omega) turn.inside
      rwa [← List.append_cons] at more

theorem leads_ruleBody (header : middle.In source) (inside : c.In source) :
    Leads source (ruleBody (middle.head source).offset) c (Source.ruleBody c).1 (Source.ruleBody c).2 := by
  have entries := comes_loop inside (leads_bodyEntries [] (Nat.lt_succ_self _) inside)
  rw [ruleBody_eq]
  refine (leads_get inside).bind fun started => Comes.bind entries fun there => ?_
  dsimp only [List.nil_append]
  split
  · exact (leads_cut header (.none middle) there).bind fun there => leads_pure there _
  · exact leads_trimmed started (started.reaches there (Comes.later entries)) .ruleBody _

theorem comes_declaration {rest : Text} (other : Text.after? alwaysTarget ('.' :: rest) = none)
    (inside : (c.within ('.' :: rest)).In source) (ending : c.lineEnd.In source) :
    Comes source declaration (c.within ('.' :: rest))
      ((target? c.line ('.' :: rest)).map fun found => (found.1, c.within found.2)) := by
  have single := newline_not_mem_left inside ending
  refine (leads_get inside).bind fun started => (leads_lineEnd_within started ending).bind fun inside => ?_
  refine (leads_cut started (moves_within_lineEnd single c) inside).bind fun inside => ?_
  simp only [target?, other]
  cases cut : Text.cutAt? ':' ('.' :: rest) with
  | none => exact fails_throw source _
  | some found =>
    obtain ⟨front, after⟩ := found
    dsimp only
    split
    · exact fails_throw source _
    · obtain ⟨more, kept⟩ : Text.trimEnd front <+: '.' :: rest := by
        rw [Text.eq_append_of_cutAt? cut]
        exact (Text.trimEnd_isPrefix front).trans (List.prefix_append _ _)
      rw [← kept, List.mem_append, not_or] at single
      have moves := moves_within_append single.1 c more
      have dropped : ('.' :: rest).drop (Text.trimEnd front).length = more := by
        rw [← kept, List.drop_left]
      rw [kept] at moves
      rw [dropped]
      exact (leads_advance inside moves).bind fun inside => leads_covered started moves .targetDecl []

theorem comes_target (inside : (c.within left).In source) (ending : c.lineEnd.In source) :
    Comes source target (c.within left)
      ((target? c.line left).map fun found => (found.1, c.within found.2)) := by
  have word : '\n' ∉ alwaysTarget := by decide
  refine (leads_get inside).bind fun started => ?_
  cases always : Text.after? alwaysTarget left with
  | some behind =>
    simp only [target?, always]
    obtain rfl := Text.eq_append_of_after? always
    have moves := moves_within_append word c behind
    refine (leads_consume started moves).bind fun inside => ?_
    exact leads_covered started moves .always []
  | none =>
    have other : ¬alwaysTarget <+: (c.within left).rest := by
      rw [prefix_within word]
      exact after?_eq_none_iff.1 always
    have dot := newline_not_mem_mark (show '.' ≠ '\n' by decide)
    refine (leads_consume_other inside other).bind fun inside => ?_
    rw [if_neg Bool.false_ne_true]
    refine (leads_peek_within dot inside).bind fun inside => ?_
    by_cases dotted : ∃ rest, left = '.' :: rest
    · obtain ⟨rest, rfl⟩ := dotted
      rw [if_pos (by simp)]
      exact comes_declaration always inside ending
    · rw [if_neg (isPrefixOf_mark fun rest same => dotted ⟨rest, same⟩)]
      simp only [target?, always]
      split
      · exact absurd ⟨_, rfl⟩ dotted
      · exact fails_throw source _

theorem ruleBody_later (c : Cursor) : (Source.ruleBody c.nextLine).2.rest.length ≤ c.below.length := by
  obtain ⟨_, moves, -⟩ := ruleBody_placed c.nextLine
  exact moves.later.trans c.length_nextLine_le_below

theorem comes_rule (inside : c.In source) : Comes source rule c (Source.rule c) := by
  have ending := inside.moves c.moves_lineEnd
  have here : (c.within c.here).In source := by rwa [within_here]
  have aim := comes_target here ending
  rw [within_here] at aim
  refine (leads_get inside).bind fun started => ?_
  simp only [Source.rule, ruleHeader]
  cases aimed : target? c.line c.here with
  | none => exact Comes.bindFails (by rwa [aimed] at aim)
  | some found =>
    rw [aimed] at aim
    refine Comes.bind aim fun inside => (leads_skipSpaces inside).bind fun inside => ?_
    dsimp only
    split
    · next after colon =>
      rw [colon] at inside ⊢
      refine (leads_token inside (moves_mark (by decide) c after)).bind fun header => ?_
      refine (leads_get header).bind fun inside => ?_
      have body := comes_below inside ending (leads_ruleBody header)
      split
      · next ended =>
        rw [if_pos ended] at body
        have later := (ruleBody_later c).trans c.length_below_le
        exact Comes.bind body fun there => leads_covered started (started.reaches there later) .rule _
      · next unended =>
        rw [if_neg unended] at body
        exact Comes.bindFails body
    · next other => exact Comes.bindFails (fails_token inside (unmarked (by decide) other))

end Watched

end BmakeZig.Source
