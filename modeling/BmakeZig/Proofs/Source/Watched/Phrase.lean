import BmakeZig.Proofs.Source.Grammar
import BmakeZig.Proofs.Source.Watched.Head

/-! Phrases under watch. A phrase ends at an offset, the trimmed end of its line, and an expansion in it
must not reach behind that; a reader of the trimmed text knows no such limit. Both find the same, since
an expansion ends in its bracket and no bracket is among the blanks that are trimmed away. -/
namespace BmakeZig.Source

namespace Watched

/-- The modifier of an expansion, behind the sign in front of it. -/
def modifier : Watched Node := do
  let start ← get
  advance 1
  let _ ← named .expansionMod
  covered .expansionMod start []

/-- Names with commas between them; every comma is followed by one more. -/
def nameRound (read : List Node) : Watched (List Node ⊕ List Node) := do
  let name ← named .identifier
  skipSpaces
  match ← token? [','] with
  | none => return .inr (read ++ [name])
  | some comma =>
    skipSpaces
    return .inl (read ++ [name, comma])

def expansionContent (mode : Mode) : Watched (List Node) := do
  let signed ← peek ['@']
  if mode = .immediate ∧ signed = true then
    let first ← modifier
    skipSpaces
    return first :: (← loop nameRound [])
  else
    let name ← named .identifier
    skipSpaces
    return [name]

/-- The mode of the expansion that the text opens. -/
def opened? (text : Text) : Option Mode :=
  [Mode.recursive, .stripping, .immediate].find? fun mode => ['$', mode.opening].isPrefixOf text

/-- The bracket that closes an expansion, which may not stand at `limit` or behind it. -/
def bracket (limit : Nat) (mode : Mode) : Watched Node := do
  if limit < (← get).offset + 1 then throw .unread
  else token [mode.closing]

/-- An expansion that ends at `limit` or before it. -/
def expansion (limit : Nat) : Watched Node := do
  let start ← get
  match opened? (← unread) with
  | none => throw .unread
  | some mode =>
    let opening ← token ['$', mode.opening]
    skipSpaces
    let content ← expansionContent mode
    let closing ← bracket limit mode
    covered (.expansion mode) start (opening :: content ++ [closing])

/-- Adds the literal text between two offsets, if there is some. -/
def flush (line start stop : Nat) (nodes : List Node) : Watched (List Node) := do
  if start < stop then return nodes ++ [.leaf .literal line (← cut start stop)]
  else return nodes

/-- An expansion, behind the literal text in front of it. -/
def expanded (line stop : Nat) (read : List Node × Nat) : Watched (List Node × Nat) := do
  let here := (← get).offset
  let piece ← expansion stop
  let pieces ← flush line read.2 here read.1
  return (pieces ++ [piece], (← get).offset)

/-- One more expansion, or one more character or pair of dollar signs of a literal. What was read are the
pieces so far and where the literal text behind them starts. -/
def piece (line stop : Nat) (read : List Node × Nat) : Watched (List Node × Nat) := do
  if ← peek ['$', '$'] then
    advance 2
    return read
  else orElse (expanded line stop read) (do advance 1; return read)

def pieceRound (line stop : Nat) (read : List Node × Nat) : Watched (List Node × Nat ⊕ List Node) := do
  let here := (← get).offset
  if stop < here then throw (.breach .overrun)
  else if here = stop then return .inr (← flush line read.2 stop read.1)
  else return .inl (← piece line stop read)

/-- The rest of the line as a phrase. -/
def phrase (kind : Kind) : Watched Node := do
  let start ← get
  let ending ← lineEnd
  let kept := Text.trimEnd (← cut start.offset ending)
  let stop := start.offset + kept.length
  let pieces ← loop (pieceRound start.line stop) ([], start.offset)
  let text ← cut start.offset stop
  advanceTo ending
  return .branch kind start.line text pieces

/-! Expansions. -/

variable {source left behind rest blanks kept run : Text} {c middle : Cursor} {d : Char} {limit : Nat}

theorem leads_named (kind : Kind) (found : Text.name? left = some (run, behind))
    (inside : (c.within left).In source) :
    Leads source (named kind) (c.within left) (.leaf kind c.line run) (c.within behind) := by
  have read := comes_named_within kind inside
  rwa [found] at read

theorem fails_named (kind : Kind) (absent : Text.name? left = none)
    (inside : (c.within left).In source) : Fails source (named kind) (c.within left) := by
  have read := comes_named_within kind inside
  rwa [absent] at read

theorem newline_not_mem_mark (plain : d ≠ '\n') : '\n' ∉ [d] := by
  simpa using plain.symm

theorem moves_mark (plain : d ≠ '\n') (c : Cursor) (rest : Text) :
    (c.within (d :: rest)).Moves [d] (c.within rest) :=
  moves_within_append (newline_not_mem_mark plain) c rest

theorem unmarked (plain : d ≠ '\n') (other : ∀ rest, left = d :: rest → False) :
    ¬[d] <+: (c.within left).rest := by
  rw [prefix_within (newline_not_mem_mark plain)]
  rintro ⟨rest, rfl⟩
  exact other rest rfl

theorem comes_names (read : List Node) (enough : left.length < limit)
    (inside : (c.within left).In source) :
    Comes source (rounds nameRound limit read) (c.within left)
      ((names c.line left).map fun found => (read ++ found.1, c.within found.2)) := by
  have comma : ',' ≠ '\n' := by decide
  fun_induction names c.line left generalizing limit read with
  | case1 left absent =>
    exact comes_rounds_stop (by omega) inside (Comes.bindFails (fails_named _ absent inside))
  | case2 left name after found rest next shorter ih =>
    have turn : Leads source (nameRound read) (c.within left)
        (.inl (read ++ [.leaf .identifier c.line name, .token c.line [',']]))
        (c.within (Text.skipSpaces rest)) := by
      refine (leads_named _ found inside).bind fun inside => (leads_skipSpaces inside).bind fun inside => ?_
      rw [next] at inside ⊢
      refine (leads_token? inside (moves_mark comma c rest)).bind fun inside => ?_
      exact (leads_skipSpaces inside).bind fun inside => leads_pure inside _
    refine comes_rounds_next (by omega) inside turn (by simpa [Cursor.within] using shorter) ?_
    have more := ih (read ++ [.leaf .identifier c.line name, .token c.line [',']])
      (by omega : _ < limit - 1) turn.inside
    simpa [Option.map_map, Function.comp_def] using more
  | case3 left name after found last =>
    refine comes_rounds_stop (by omega) inside ((leads_named _ found inside).bind fun inside =>
      (leads_skipSpaces inside).bind fun inside => ?_)
    exact (leads_token?_other inside (unmarked comma last)).bind fun inside => leads_pure inside _

theorem leads_modifier {after : Text} (found : Text.name? after = some (run, behind))
    (inside : (c.within ('@' :: after)).In source) :
    Leads source modifier (c.within ('@' :: after)) (.leaf .expansionMod c.line ('@' :: run))
      (c.within behind) := by
  have sign := moves_mark (show '@' ≠ '\n' by decide) c after
  have single : '\n' ∉ '@' :: run := by
    simpa using newline_not_mem_name (Text.isName_of_name? found)
  have whole := moves_within_append single c behind
  rw [List.cons_append, ← Text.name?_eq_append found] at whole
  refine (leads_get inside).bind fun started => (leads_advance started sign).bind fun inside => ?_
  refine (leads_named .expansionMod found inside).bind fun inside => ?_
  exact leads_covered started whole .expansionMod []

theorem fails_modifier {after : Text} (absent : Text.name? after = none)
    (inside : (c.within ('@' :: after)).In source) :
    Fails source modifier (c.within ('@' :: after)) := by
  have sign := moves_mark (show '@' ≠ '\n' by decide) c after
  refine (leads_get inside).bind fun inside => (leads_advance inside sign).bind fun inside => ?_
  exact Comes.bindFails (fails_named .expansionMod absent inside)

theorem comes_expansionContent (mode : Mode) (inside : (c.within left).In source) :
    Comes source (expansionContent mode) (c.within left)
      ((Source.expansionContent c.line mode left).map fun found => (found.1, c.within found.2)) := by
  refine (leads_peek_within (show '\n' ∉ ['@'] by decide) inside).bind fun inside => ?_
  by_cases modified : mode = .immediate ∧ ∃ after, left = '@' :: after
  · obtain ⟨rfl, after, rfl⟩ := modified
    rw [if_pos ⟨rfl, by simp⟩]
    cases found : Text.name? after with
    | none =>
      simp only [Source.expansionContent, found, Option.bind_none, Option.map_none]
      exact Comes.bindFails (fails_modifier found inside)
    | some read =>
      simp only [Source.expansionContent, found, Option.bind_some, Option.map_map]
      refine (leads_modifier found inside).bind fun inside => (leads_skipSpaces inside).bind fun inside => ?_
      have listed := comes_loop inside (comes_names [] (c.length_lt_within _) inside)
      cases names : names c.line (Text.skipSpaces read.2) with
      | none => exact Comes.bindFails (by rwa [names] at listed)
      | some more =>
        rw [names] at listed
        exact Comes.bind listed fun inside => leads_pure inside _
  · have plain : mode = .immediate → left.head? ≠ some '@' := fun own first =>
      modified ⟨own, List.head?_eq_some_iff.1 first⟩
    have unsigned : ¬(mode = .immediate ∧ ['@'].isPrefixOf left = true) := by
      rintro ⟨own, signed⟩
      obtain ⟨after, whole⟩ := List.isPrefixOf_iff_prefix.1 signed
      exact modified ⟨own, after, whole.symm⟩
    rw [if_neg unsigned, expansionContent_plain plain, oneName]
    cases found : Text.name? left with
    | none => exact Comes.bindFails (fails_named _ found inside)
    | some read =>
      exact (leads_named _ found inside).bind fun inside => (leads_skipSpaces inside).bind fun inside =>
        leads_pure inside _

theorem closing_ne_newline (mode : Mode) : mode.closing ≠ '\n' := by
  cases mode <;> decide

theorem closing_not_blank (mode : Mode) : ¬Text.isBlank mode.closing = true := by
  cases mode <;> decide

/-- Blanks behind a text take no part in an expansion. -/
theorem expansion_append_blanks (line : Nat) (blank : ∀ d ∈ blanks, Text.isBlank d = true) (text : Text) :
    Source.expansion line (text ++ blanks) =
      (Source.expansion line text).map fun found => (found.1, found.2 ++ blanks) := by
  cases read : Source.expansion line text with
  | some found =>
    obtain ⟨node, left⟩ := found
    obtain ⟨mode, gap, content, nodes, rfl, spaces, spelled, rfl⟩ := content_of_expansion read
    rw [List.append_assoc, expansion_content spaces spelled]
    rfl
  | none =>
    by_contra other
    obtain ⟨⟨node, left⟩, longer⟩ := Option.ne_none_iff_exists'.1 other
    obtain ⟨mode, gap, content, nodes, whole, spaces, spelled, -⟩ := content_of_expansion longer
    -- Without the blanks the expansion is there as well, or its bracket is one of them.
    rcases List.append_eq_append_iff.1 whole with ⟨more, ending, split⟩ | ⟨more, rfl, -⟩
    · rcases List.eq_nil_or_concat more with rfl | ⟨front, last, rfl⟩
      · have own := expansion_content spaces spelled []
        rw [ending, List.append_nil, List.append_nil, read] at own
        cases own
      · have same : ('$' :: mode.opening :: gap ++ content) ++ [mode.closing] = (text ++ front) ++ [last] := by
          rw [List.append_assoc text]
          exact ending.trans (by rw [List.concat_eq_append])
        obtain ⟨-, closing⟩ := List.append_inj' same rfl
        obtain rfl := (List.cons.inj closing).1
        exact closing_not_blank mode (blank mode.closing (by simp [split]))
    · rw [expansion_content spaces spelled] at read
      cases read

theorem newline_not_mem_opening (mode : Mode) : '\n' ∉ ['$', mode.opening] := by
  cases mode <;> decide

theorem opened?_within (c : Cursor) (left : Text) : opened? (c.within left).rest = opened? left := by
  unfold opened?
  congr 1
  funext mode
  exact isPrefixOf_within (newline_not_mem_opening mode) c left

/-- An expansion is opened, or there is none. -/
theorem opened?_cases (line : Nat) (text : Text) :
    (opened? text = none ∧ Source.expansion line text = none) ∨
      ∃ mode inside, opened? text = some mode ∧ text = '$' :: mode.opening :: inside := by
  cases found : opened? text with
  | some mode =>
    have opens : ['$', mode.opening].isPrefixOf text = true := by
      simpa using List.find?_some (found : List.find? _ _ = some mode)
    obtain ⟨inside, rfl⟩ := List.isPrefixOf_iff_prefix.1 opens
    exact .inr ⟨mode, inside, rfl, rfl⟩
  | none =>
    refine .inl ⟨rfl, ?_⟩
    unfold Source.expansion
    split
    · next d inside =>
      cases opens : Mode.ofOpening? d with
      | none => rfl
      | some mode =>
        obtain rfl := Mode.opening_of_ofOpening? opens
        have unopened := List.find?_eq_none.1 found mode (by cases mode <;> simp)
        simp at unopened
    · rfl

/-- A bracket does not stand among the blanks that a line ends in. -/
theorem leads_bracket (mode : Mode) (blank : ∀ d ∈ blanks, Text.isBlank d = true)
    (inside : (c.within (mode.closing :: rest)).In source) (ending : (c.within blanks).In source) :
    Leads source (bracket ((c.within blanks).head source).offset mode) (c.within (mode.closing :: rest))
      (.token c.line [mode.closing]) (c.within rest) := by
  have front : ¬((c.within blanks).head source).offset <
      ((c.within (mode.closing :: rest)).head source).offset + 1 := by
    intro behind
    have later : (c.within (mode.closing :: rest)).rest.length ≤ (c.within blanks).rest.length := by
      obtain ⟨passed, whole, -⟩ := inside.split
      have held : (c.within (mode.closing :: rest)).rest.length ≤ source.length := by simp [whole]
      simp only [Cursor.head] at behind
      omega
    obtain ⟨used, split, -⟩ := within_split ending inside later
    exact closing_not_blank mode (blank mode.closing (by simp [split]))
  refine (leads_get inside).bind fun inside => ?_
  rw [if_neg front]
  exact leads_token inside (moves_mark (closing_ne_newline mode) c rest)

theorem fails_bracket {mode : Mode} (inside : (c.within left).In source)
    (other : ∀ rest, left = mode.closing :: rest → False) :
    Fails source (bracket limit mode) (c.within left) := by
  refine (leads_get inside).bind fun inside => ?_
  split
  · exact fails_throw source _
  · exact fails_token inside (unmarked (closing_ne_newline mode) other)

theorem comes_expansion (blank : ∀ d ∈ blanks, Text.isBlank d = true)
    (inside : (c.within (kept ++ blanks)).In source) (ending : (c.within blanks).In source) :
    Comes source (expansion ((c.within blanks).head source).offset) (c.within (kept ++ blanks))
      ((Source.expansion c.line kept).map fun found => (found.1, c.within (found.2 ++ blanks))) := by
  have same : ((Source.expansion c.line kept).map fun found => (found.1, c.within (found.2 ++ blanks))) =
      (Source.expansion c.line (kept ++ blanks)).map fun found => (found.1, c.within found.2) := by
    rw [expansion_append_blanks c.line blank kept, Option.map_map]
    rfl
  rw [same]
  generalize kept ++ blanks = left at inside
  have started := inside
  refine (leads_get inside).bind fun inside => (leads_unread inside).bind fun inside => ?_
  rw [opened?_within]
  rcases opened?_cases c.line left with ⟨closed, none⟩ | ⟨mode, rest, opened, rfl⟩
  · rw [closed, none]
    exact fails_throw source _
  rw [opened]
  have opening := moves_within_append (newline_not_mem_opening mode) c rest
  refine (leads_token inside opening).bind fun inside => (leads_skipSpaces inside).bind fun inside => ?_
  have content := comes_expansionContent mode inside
  simp only [Source.expansion, Mode.ofOpening?_opening]
  cases read : Source.expansionContent c.line mode (Text.skipSpaces rest) with
  | none => exact Comes.bindFails (by rwa [read] at content)
  | some found =>
    obtain ⟨nodes, behind⟩ := found
    rw [read] at content
    refine Comes.bind content fun inside => ?_
    rcases behind with _ | ⟨d, after⟩
    · exact Comes.bindFails (fails_bracket inside (by simp))
    · dsimp only
      split
      · next closes =>
        subst closes
        have shorter := length_of_expansionContent read
        have skipped := Text.length_skipSpaces_le rest
        simp only [List.length_cons] at shorter
        refine (leads_bracket mode blank inside ending).bind fun inside => ?_
        exact leads_covered_within started inside (by simp only [List.length_cons]; omega) _ _
      · next other => exact Comes.bindFails (fails_bracket inside (by simp [other]))

/-- An expansion that may reach up to the end of its line. -/
theorem comes_expansion_lineEnd (inside : (c.within left).In source) (ending : c.lineEnd.In source) :
    Comes source (do expansion (← lineEnd)) (c.within left)
      ((Source.expansion c.line left).map fun found => (found.1, c.within found.2)) := by
  refine (leads_lineEnd_within inside ending).bind fun inside => ?_
  have unread : (c.within (left ++ [])).In source := by rwa [List.append_nil]
  have read := comes_expansion (show ∀ d ∈ [], Text.isBlank d = true by simp) unread ending
  simp only [List.append_nil] at read
  exact read

/-! Pieces. The literal text that is not yet a piece is what lies between the offset the state holds and
the head. -/

/-- Literal text as a piece, if there is some. -/
def literal (line : Nat) (run : Text) : List Node :=
  if run = [] then [] else [.leaf .literal line run]

theorem foldr_consLiteral (line : Nat) (run : Text) {nodes : List Node}
    (other : ∀ node ∈ nodes.head?, node.kind ≠ .literal) :
    run.foldr (consLiteral line) nodes = literal line run ++ nodes := by
  induction run with
  | nil => rfl
  | cons d run ih =>
    rw [List.foldr_cons, ih]
    cases run with
    | cons e run => rfl
    | nil =>
      rcases nodes with _ | ⟨⟨kind, named, own, text, children⟩, nodes⟩
      · rfl
      · have apart : kind ≠ .literal := other _ rfl
        cases kind <;> first | rfl | exact absurd rfl apart

theorem leads_flush (nodes : List Node) (began : (c.within (run ++ left)).In source)
    (inside : (c.within left).In source) (here : middle.In source) :
    Leads source (flush c.line ((c.within (run ++ left)).head source).offset
      ((c.within left).head source).offset nodes) middle (nodes ++ literal c.line run) middle := by
  have moves := moves_within_append (newline_not_mem_used began inside) c left
  have ending := began.offset_moves moves
  unfold flush literal
  cases run with
  | nil =>
    rw [List.nil_append, if_neg (Nat.lt_irrefl _), if_pos rfl, List.append_nil]
    exact leads_pure here nodes
  | cons d run =>
    rw [if_pos (by simp only [ending, List.length_cons]; omega), if_neg (by simp)]
    exact (leads_cut began moves here).bind fun here => leads_pure here _

/-- Where an expansion is read, the literal text in front of it is a piece of its own. -/
theorem leads_expanded {node : Node} (read : Source.expansion c.line kept = some (node, rest))
    (nodes : List Node) (blank : ∀ d ∈ blanks, Text.isBlank d = true)
    (began : (c.within (run ++ (kept ++ blanks))).In source) (inside : (c.within (kept ++ blanks)).In source)
    (ending : (c.within blanks).In source) :
    Leads source (expanded c.line ((c.within blanks).head source).offset
        (nodes, ((c.within (run ++ (kept ++ blanks))).head source).offset))
      (c.within (kept ++ blanks))
      (nodes ++ literal c.line run ++ [node], ((c.within (rest ++ blanks)).head source).offset)
      (c.within (rest ++ blanks)) := by
  have started := inside
  have piece := comes_expansion blank inside ending
  rw [read] at piece
  refine (leads_get inside).bind fun inside => Comes.bind piece fun inside => ?_
  refine (leads_flush nodes began started inside).bind fun inside => ?_
  exact (leads_get inside).bind fun inside => leads_pure inside _

theorem fails_expanded {read : List Node × Nat} (unread : Source.expansion c.line kept = none)
    (blank : ∀ d ∈ blanks, Text.isBlank d = true)
    (inside : (c.within (kept ++ blanks)).In source) (ending : (c.within blanks).In source) :
    Fails source (expanded c.line ((c.within blanks).head source).offset read)
      (c.within (kept ++ blanks)) := by
  have piece := comes_expansion blank inside ending
  rw [unread] at piece
  exact (leads_get inside).bind fun inside => Comes.bindFails piece

/-- A round on some text that is left, in front of the trimmed end. -/
theorem leads_pieceRound {read next : List Node × Nat} (filled : kept ≠ [])
    (inside : (c.within (kept ++ blanks)).In source) (ending : (c.within blanks).In source)
    (turn : Leads source (piece c.line ((c.within blanks).head source).offset read)
      (c.within (kept ++ blanks)) next middle) :
    Leads source (pieceRound c.line ((c.within blanks).head source).offset read)
      (c.within (kept ++ blanks)) (.inl next) middle := by
  have further := inside.offset_moves (moves_within_append (newline_not_mem_used inside ending) c blanks)
  have some_left := List.length_pos_iff.2 filled
  refine (leads_get inside).bind fun inside => ?_
  rw [if_neg (by omega), if_neg (by omega)]
  exact turn.bind fun inside => leads_pure inside _

theorem leads_twoDollars {read : List Node × Nat} {limit : Nat}
    (inside : (c.within ('$' :: '$' :: left)).In source) :
    Leads source (piece c.line limit read) (c.within ('$' :: '$' :: left)) read (c.within left) := by
  have moves := moves_within_append (show '\n' ∉ ['$', '$'] by decide) c left
  refine (leads_peek_within (show '\n' ∉ ['$', '$'] by decide) inside).bind fun inside => ?_
  rw [if_pos (by simp)]
  exact (leads_advance inside moves).bind fun inside => leads_pure inside _

theorem leads_expansion {node : Node} (double : ¬['$', '$'] <+: kept ++ blanks)
    (read : Source.expansion c.line kept = some (node, rest)) (nodes : List Node)
    (blank : ∀ d ∈ blanks, Text.isBlank d = true)
    (began : (c.within (run ++ (kept ++ blanks))).In source) (inside : (c.within (kept ++ blanks)).In source)
    (ending : (c.within blanks).In source) :
    Leads source (piece c.line ((c.within blanks).head source).offset
        (nodes, ((c.within (run ++ (kept ++ blanks))).head source).offset))
      (c.within (kept ++ blanks))
      (nodes ++ literal c.line run ++ [node], ((c.within (rest ++ blanks)).head source).offset)
      (c.within (rest ++ blanks)) := by
  refine (leads_peek_within (show '\n' ∉ ['$', '$'] by decide) inside).bind fun inside => ?_
  rw [if_neg (by simpa using double)]
  exact leads_orElse inside (leads_expanded read nodes blank began inside ending)

theorem leads_character {read : List Node × Nat} (plain : d ≠ '\n')
    (double : ¬['$', '$'] <+: d :: (rest ++ blanks)) (unread : Source.expansion c.line (d :: rest) = none)
    (blank : ∀ d ∈ blanks, Text.isBlank d = true)
    (inside : (c.within (d :: rest ++ blanks)).In source) (ending : (c.within blanks).In source) :
    Leads source (piece c.line ((c.within blanks).head source).offset read)
      (c.within (d :: rest ++ blanks)) read (c.within (rest ++ blanks)) := by
  refine (leads_peek_within (show '\n' ∉ ['$', '$'] by decide) inside).bind fun inside => ?_
  rw [if_neg (by simpa using double)]
  refine comes_orElse inside (fails_expanded unread blank inside ending) ?_
  exact (leads_advance inside (moves_mark plain c (rest ++ blanks))).bind fun inside => leads_pure inside _

/-- A round that passes over literal text, which the rounds behind it then have in front of them. -/
theorem leads_literal (used : Text) {nodes others : List Node} (filled : used ≠ []) (enough : 0 < limit)
    (began : (c.within (run ++ (used ++ (rest ++ blanks)))).In source)
    (inside : (c.within (used ++ (rest ++ blanks))).In source) (ending : (c.within blanks).In source)
    (turn : ∀ read, Leads source (piece c.line ((c.within blanks).head source).offset read)
      (c.within (used ++ (rest ++ blanks))) read (c.within (rest ++ blanks)))
    (more : (c.within (run ++ used ++ (rest ++ blanks))).In source → (c.within (rest ++ blanks)).In source →
      Leads source (rounds (pieceRound c.line ((c.within blanks).head source).offset) (limit - 1)
          (nodes, ((c.within (run ++ used ++ (rest ++ blanks))).head source).offset))
        (c.within (rest ++ blanks)) (nodes ++ (run ++ used).foldr (consLiteral c.line) others)
        (c.within blanks)) :
    Leads source (rounds (pieceRound c.line ((c.within blanks).head source).offset) limit
        (nodes, ((c.within (run ++ (used ++ (rest ++ blanks)))).head source).offset))
      (c.within (used ++ (rest ++ blanks)))
      (nodes ++ run.foldr (consLiteral c.line) (used.foldr (consLiteral c.line) others))
      (c.within blanks) := by
  have some_used := List.length_pos_iff.2 filled
  rw [List.append_assoc run, List.foldr_append] at more
  refine comes_rounds_next enough inside ?_ (by simp only [Cursor.length_within, List.length_append]; omega)
    (more began (turn (nodes, 0)).inside)
  rw [← List.append_assoc used] at inside turn ⊢
  exact leads_pieceRound (by simp [filled]) inside ending (turn _)

theorem single_dollar {after : Text} (blank : ∀ d ∈ blanks, Text.isBlank d = true)
    (notTwo : ∀ rest, after = '$' :: rest → False) : ¬['$', '$'] <+: '$' :: (after ++ blanks) := by
  rw [List.cons_prefix_cons, not_and]
  rintro - ⟨rest, whole⟩
  rcases after with _ | ⟨d, after⟩
  · have dollar := blank '$' (by simp [← show _ = blanks from whole])
    exact absurd dollar (by decide)
  · obtain rfl : '$' = d := (List.cons.inj whole).1
    exact notTwo after rfl

theorem leads_pieces (run : Text) (nodes : List Node) (blank : ∀ d ∈ blanks, Text.isBlank d = true)
    (began : (c.within (run ++ (kept ++ blanks))).In source) (inside : (c.within (kept ++ blanks)).In source)
    (ending : (c.within blanks).In source) (enough : kept.length < limit) :
    Leads source (rounds (pieceRound c.line ((c.within blanks).head source).offset) limit
        (nodes, ((c.within (run ++ (kept ++ blanks))).head source).offset))
      (c.within (kept ++ blanks)) (nodes ++ run.foldr (consLiteral c.line) (pieces c.line kept))
      (c.within blanks) := by
  have some_left : 0 < limit := by omega
  fun_induction pieces c.line kept generalizing run nodes limit with
  | case1 =>
    refine comes_rounds_stop some_left inside ((leads_get inside).bind fun inside => ?_)
    rw [List.nil_append, if_neg (Nat.lt_irrefl _), if_pos rfl, foldr_consLiteral _ _ (by simp), List.append_nil]
    exact (leads_flush nodes began ending inside).bind fun inside => leads_pure inside _
  | case2 rest ih =>
    simp only [List.length_cons] at enough
    exact leads_literal ['$', '$'] (by simp) some_left began inside ending (fun _ => leads_twoDollars inside)
      fun began inside => ih _ nodes began inside (by omega) (by omega)
  | case3 after notTwo node rest read shorter ih =>
    simp only [List.length_cons] at enough
    have turn := leads_pieceRound (by simp) inside ending
      (leads_expansion (single_dollar blank notTwo) read nodes blank began inside ending)
    have further : (c.within (rest ++ blanks)).rest.length <
        (c.within ('$' :: after ++ blanks)).rest.length := by
      simp only [Cursor.length_within, List.length_append, List.length_cons]
      omega
    refine comes_rounds_next some_left inside turn further ?_
    have apart : ∀ next ∈ (node :: pieces c.line rest).head?, next.kind ≠ .literal := by
      obtain ⟨mode, gap, content, inner, -, -, -, rfl⟩ := content_of_expansion read
      simp [expansionNode, Node.branch]
    have more := ih [] (nodes ++ literal c.line run ++ [node]) turn.inside turn.inside
      (by omega : _ < limit - 1) (by omega)
    rw [foldr_consLiteral _ _ apart]
    simpa using more
  | case4 after notTwo failed ih =>
    simp only [List.length_cons] at enough
    exact leads_literal ['$'] (by simp) some_left began inside ending
      (fun _ => leads_character (by decide) (single_dollar blank notTwo) failed blank inside ending)
      fun began inside => ih _ nodes began inside (by omega) (by omega)
  | case5 d rest notTwo other ih =>
    simp only [List.length_cons] at enough
    have plain : d ≠ '\n' := fun same => newline_not_mem_used inside ending (by simp [same])
    have failed : Source.expansion c.line (d :: rest) = none := by
      unfold Source.expansion
      split
      · next same => exact absurd (List.cons.inj same).1 other
      · rfl
    exact leads_literal [d] (by simp) some_left began inside ending
      (fun _ => leads_character plain (by simp [Ne.symm other]) failed blank inside ending)
      fun began inside => ih _ nodes began inside (by omega) (by omega)

theorem leads_phrase (kind : Kind) (inside : (c.within left).In source) (ending : c.lineEnd.In source) :
    Leads source (phrase kind) (c.within left) (Source.phrase kind c.line left) c.lineEnd := by
  obtain ⟨blanks, split, blank, -⟩ := Text.trimEnd_split left
  have single := newline_not_mem_left inside ending
  have line := leads_lineEnd_within inside ending
  refine (leads_get inside).bind fun started => line.bind fun inside => ?_
  refine (leads_cut started (moves_within_lineEnd single c) inside).bind fun inside => ?_
  unfold Source.phrase
  generalize Text.trimEnd left = kept at split
  subst split
  have front := moves_within_append (fun member => single (List.mem_append_left _ member)) c blanks
  have behind := moves_within_lineEnd (fun member => single (List.mem_append_right _ member)) c
  have last := started.moves front
  have read := comes_loop inside (leads_pieces [] [] blank started started last
    (Nat.lt_of_le_of_lt (List.prefix_append kept blanks).length_le (c.length_lt_within _)))
  dsimp only
  rw [← started.offset_moves front]
  refine Comes.bind read fun inside => (leads_cut started front inside).bind fun inside => ?_
  exact (leads_advanceTo inside behind).bind fun inside => leads_pure inside _

end Watched

end BmakeZig.Source
