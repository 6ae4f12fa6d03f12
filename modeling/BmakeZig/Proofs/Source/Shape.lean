import BmakeZig.Proofs.Source.Words
import BmakeZig.Proofs.Tree.Shape
import BmakeZig.Source.Unit

/-! Every node the reader builds has the shape of its role. One lemma per reader, from expansions up
to whole units; the readers that take another reader as an argument preserve whatever that one
guarantees. -/
namespace BmakeZig.Source

variable {line : Nat} {text rest : Text} {node : Node} {nodes : List Node}

/-! Phrases. -/

theorem shape_of_oneName (read : oneName line text = some (nodes, rest)) :
    ∃ content, nodes = [content] ∧ Shape .name content := by
  obtain ⟨found, named, same⟩ := Option.map_eq_some_iff.1 read
  simp only [Prod.mk.injEq] at same
  exact ⟨_, same.1.symm, .name (Text.isName_of_name? named)⟩

/-- A list of names has no node below another one. -/
theorem words_of_names (read : names line text = some (nodes, rest)) :
    ∀ word ∈ nodes, word.children = [] ∧ (word.kind = .identifier ∨ word.kind = .token) := by
  have name (found : Text) : (Node.leaf .identifier line found).children = [] ∧
      ((Node.leaf .identifier line found).kind = .identifier ∨
        (Node.leaf .identifier line found).kind = .token) := ⟨rfl, .inl rfl⟩
  fun_induction names line text generalizing nodes rest with
  | case1 => simp at read
  | case2 text found after _ behind _ _ ih =>
    obtain ⟨more, again, same⟩ := Option.map_eq_some_iff.1 read
    simp only [Prod.mk.injEq] at same
    rw [← same.1]
    exact List.forall_mem_cons.2 ⟨name found, List.forall_mem_cons.2 ⟨⟨rfl, .inr rfl⟩, ih again⟩⟩
  | case3 text found after =>
    simp only [Option.some.injEq, Prod.mk.injEq] at read
    rw [← read.1]
    exact List.forall_mem_singleton.2 (name found)

theorem shape_of_expansionContent {mode : Mode}
    (read : expansionContent line mode text = some (nodes, rest)) :
    (∃ content, nodes = [content] ∧ Shape .name content) ∨
      (mode = .immediate ∧ ∃ modifier listed, nodes = .leaf .expansionMod line modifier :: listed ∧
        ∀ word ∈ listed, word.children = [] ∧ (word.kind = .identifier ∨ word.kind = .token)) := by
  unfold expansionContent at read
  split at read
  · obtain ⟨found, _, more⟩ := Option.bind_eq_some_iff.1 read
    obtain ⟨inner, listed, same⟩ := Option.map_eq_some_iff.1 more
    simp only [Prod.mk.injEq] at same
    exact Or.inr ⟨rfl, _, _, same.1.symm, words_of_names listed⟩
  · exact Or.inl (shape_of_oneName read)

theorem shape_of_expansion (read : expansion line text = some (node, rest)) :
    Shape .expansion node := by
  unfold expansion at read
  split at read
  · split at read
    · simp at read
    · split at read
      · next inner =>
        split at read
        · simp only [Option.some.injEq, Prod.mk.injEq] at read
          rw [← read.1]
          rcases shape_of_expansionContent inner with
            ⟨content, rfl, named⟩ | ⟨rfl, modifier, listed, rfl, words⟩
          · exact .plain named
          · exact .modified words
        · simp at read
      · simp at read
  · simp at read

theorem shape_of_consLiteral {c : Char} (others : ∀ child ∈ nodes, Shape .piece child) :
    ∀ child ∈ consLiteral line c nodes, Shape .piece child := by
  intro child member
  unfold consLiteral at member
  split at member
  · rcases List.mem_cons.1 member with rfl | later
    · exact .literal
    · exact others child (List.mem_cons_of_mem _ later)
  · rcases List.mem_cons.1 member with rfl | later
    · exact .literal
    · exact others child later

theorem shape_of_pieces (line : Nat) (text : Text) :
    ∀ child ∈ pieces line text, Shape .piece child := by
  fun_induction pieces line text with
  | case1 => simp
  | case2 rest ih => exact shape_of_consLiteral (shape_of_consLiteral ih)
  | case3 after _ node rest read _ ih =>
    intro child member
    rcases List.mem_cons.1 member with rfl | later
    · exact .expanded (shape_of_expansion read)
    · exact ih child later
  | case4 after _ _ ih => exact shape_of_consLiteral ih
  | case5 c rest _ _ ih => exact shape_of_consLiteral ih

theorem shape_of_phrase (kind : Kind) (oneLine : '\n' ∉ text) :
    Shape (.phrase kind) (phrase kind line text) :=
  .phrase (fun found => oneLine (Text.mem_of_mem_trimEnd found)) (shape_of_pieces line _) rfl

/-! Conditions. -/

/-- Whatever the reader accepts is a condition. -/
def ReadsConditions (reader : Reader) : Prop :=
  ∀ {text rest : Text} {node : Node}, reader text = some (node, rest) → Shape .condition node

theorem shape_of_operands {kind : Kind} {operator whole : Text} {operand : Reader} {limit : Nat}
    {left : Node} (kinds : kind = .or ∨ kind = .and ∨ kind = .eq) (reads : ReadsConditions operand)
    (first : Shape .condition left)
    (read : operands line kind operator operand whole limit left text = some (node, rest)) :
    Shape .condition node := by
  induction limit generalizing left text with
  | zero =>
    simp only [operands, Option.some.injEq, Prod.mk.injEq] at read
    rw [← read.1]
    exact first
  | succ limit ih =>
    simp only [operands] at read
    split at read
    · simp only [Option.some.injEq, Prod.mk.injEq] at read
      rw [← read.1]
      exact first
    · split at read
      · simp at read
      · next right after found => exact ih (.joined kinds first (reads found)) read

theorem joined_reads {kind : Kind} {operator : Text} {operand : Reader}
    (kinds : kind = .or ∨ kind = .and ∨ kind = .eq) (reads : ReadsConditions operand) :
    ReadsConditions (joined line kind operator operand) := by
  intro text rest node read
  simp only [joined] at read
  split at read
  · simp at read
  · next left after found => exact shape_of_operands kinds reads (reads found) read

theorem comparison_reads {operand : Reader} (reads : ReadsConditions operand) :
    ReadsConditions (comparison line operand) := by
  intro text rest node read
  simp only [comparison] at read
  split at read
  · simp at read
  · next left after found =>
    split at read
    · simp only [Option.some.injEq, Prod.mk.injEq] at read
      rw [← read.1]
      exact reads found
    · obtain ⟨right, second, same⟩ := Option.map_eq_some_iff.1 read
      simp only [Prod.mk.injEq] at same
      rw [← same.1]
      exact .joined (Or.inr (Or.inr rfl)) (reads found) (reads second)

theorem negation_reads {operand : Reader} (reads : ReadsConditions operand) :
    ReadsConditions (negation line operand) := by
  intro text rest node read
  fun_induction negation line operand text generalizing node rest with
  | case1 text behind _ _ ih =>
    obtain ⟨inner, found, same⟩ := Option.map_eq_some_iff.1 read
    simp only [Prod.mk.injEq] at same
    rw [← same.1]
    exact .negated (ih found)
  | case2 text => exact reads read

theorem nameOrDefined_reads : ReadsConditions (nameOrDefined line) := by
  intro text rest node read
  simp only [nameOrDefined] at read
  split at read
  · simp at read
  · next name after found =>
    have plain : Shape .condition (.leaf .identifier line name) :=
      .named (.name (Text.isName_of_name? found))
    split at read
    · split at read
      · split at read
        · simp at read
        · next target left inner =>
          split at read
          · simp only [Option.some.injEq, Prod.mk.injEq] at read
            rw [← read.1]
            exact .defined (.name (Text.isName_of_name? inner))
          · simp at read
      · simp only [Option.some.injEq, Prod.mk.injEq] at read
        rw [← read.1]
        exact plain
    · simp only [Option.some.injEq, Prod.mk.injEq] at read
      rw [← read.1]
      exact plain

theorem primary_reads {inner : Reader} (reads : ReadsConditions inner) :
    ReadsConditions (primary line inner) := by
  intro text rest node read
  simp only [primary] at read
  split at read
  · split at read
    · simp at read
    · next found =>
      split at read
      · simp only [Option.some.injEq, Prod.mk.injEq] at read
        rw [← read.1]
        exact reads found
      · simp at read
  · obtain ⟨cut, _, same⟩ := Option.map_eq_some_iff.1 read
    simp only [Prod.mk.injEq] at same
    rw [← same.1]
    exact .string
  · exact .expansion (shape_of_expansion read)
  · exact nameOrDefined_reads read

theorem conditionWithin_reads (depth : Nat) : ReadsConditions (conditionWithin line depth) := by
  induction depth with
  | zero => intro text rest node read; simp [conditionWithin] at read
  | succ depth ih =>
    exact joined_reads (Or.inl rfl) <| joined_reads (Or.inr (Or.inl rfl)) <|
      comparison_reads (negation_reads (primary_reads ih))

theorem condition_reads : ReadsConditions (condition line) :=
  fun read => conditionWithin_reads _ read

/-! Lines and rules. -/

theorem argument_oneLine {directive : Directive} (oneLine : '\n' ∉ text) :
    '\n' ∉ Text.skipSpaces (directive.argument text) :=
  fun found => oneLine (List.mem_of_mem_drop (Text.mem_of_mem_skipSpaces found))

theorem shape_of_pathDirective {kind : Kind} {directive : Directive} (oneLine : '\n' ∉ text)
    (kinds : kind = .inclusion ∨ kind = .search)
    (read : pathDirective kind directive line text = some node) : Shape .statement node := by
  simp only [pathDirective] at read
  split at read
  · simp at read
  · simp only [Option.some.injEq] at read
    rw [← read]
    exact .located kinds (shape_of_phrase .path (argument_oneLine oneLine))

theorem shape_of_undef (read : undef line text = some (node, rest)) : Shape .statement node := by
  simp only [undef] at read
  split at read
  · simp at read
  · next name left found =>
    split at read
    · simp only [Option.some.injEq, Prod.mk.injEq] at read
      rw [← read.1]
      exact .undef (.name (Text.isName_of_name? found))
    · simp at read

theorem shape_of_assignment (oneLine : '\n' ∉ text) (read : assignment line text = some node) :
    Shape .statement node := by
  simp only [assignment] at read
  split at read
  · simp at read
  · next name after found =>
    obtain ⟨⟨operator, left⟩, taken, same⟩ := Option.map_eq_some_iff.1 read
    have valueLine : '\n' ∉ Text.skipSpaces left := by
      intro member
      have inLeft : '\n' ∈ Text.skipSpaces after := by
        rw [(eq_append_of_operator? taken).1]
        exact List.mem_append_right _ (Text.mem_of_mem_skipSpaces member)
      apply oneLine
      rw [Text.name?_eq_append found]
      exact List.mem_append_right _ (Text.mem_of_mem_skipSpaces inLeft)
    rw [← same]
    exact .assignment (.name (Text.isName_of_name? found)) (shape_of_phrase .value valueLine)

theorem shape_of_target? (read : target? line text = some (node, rest)) : Shape .target node := by
  simp only [target?] at read
  split at read
  · simp only [Option.some.injEq, Prod.mk.injEq] at read
    rw [← read.1]
    exact .always
  · split at read
    · split at read
      · simp at read
      · split at read
        · simp at read
        · simp only [Option.some.injEq, Prod.mk.injEq] at read
          rw [← read.1]
          exact .declared
    · simp at read

theorem shape_of_command (oneLine : '\n' ∉ text) : Shape .entry (command line text) := by
  have textLine : '\n' ∉ Text.trimEnd text := fun found => oneLine (Text.mem_of_mem_trimEnd found)
  have afterLine : '\n' ∉ text.dropWhile isModifier :=
    fun found => oneLine ((List.dropWhile_suffix isModifier).subset found)
  have modifying : ∀ modifier ∈ (text.takeWhile isModifier).map fun c => Node.leaf .commandMod line [c],
      ∃ mark, modifier = .leaf .commandMod line mark := by
    intro modifier member
    obtain ⟨c, _, rfl⟩ := List.mem_map.1 member
    exact ⟨[c], rfl⟩
  simp only [command]
  cases found : builtin? (text.dropWhile isModifier) with
  | none =>
    refine .command textLine modifying (Or.inl rfl) (shape_of_phrase .command ?_)
    exact fun member => afterLine (Text.mem_of_mem_skipSpaces member)
  | some named =>
    obtain ⟨name, left⟩ := named
    unfold builtin? at found
    split at found
    · next behind whole =>
      obtain ⟨⟨word, after⟩, read, same⟩ := Option.map_eq_some_iff.1 found
      simp only [Prod.mk.injEq] at same
      refine .command textLine modifying (Or.inr ⟨word, Text.isName_of_name? read, by rw [same.1]⟩)
        (shape_of_phrase .command ?_)
      intro member
      apply afterLine
      rw [whole, Text.name?_eq_append read, same.2]
      exact List.mem_cons_of_mem _ (List.mem_append_right _ (Text.mem_of_mem_skipSpaces member))
    · simp at found

theorem shape_of_bodyEntry (oneLine : '\n' ∉ text) : Shape .entry (bodyEntry line text) := by
  unfold bodyEntry
  split
  · exact .remark fun found => oneLine (Text.mem_of_mem_trimEnd found)
  · exact shape_of_command oneLine

theorem shape_of_bodyEntries (c : Cursor) : ∀ entry ∈ (bodyEntries c).1, Shape .entry entry := by
  fun_induction bodyEntries c with
  | case1 => simp
  | case2 c filled found _ rest ih =>
    intro entry member
    rcases List.mem_cons.1 member with rfl | later
    · exact shape_of_bodyEntry fun inside => filled.newline_not_mem_here (Text.mem_of_mem_skipSpaces inside)
    · exact ih entry later

theorem ruleBody_children (c : Cursor) :
    ∃ bodyText entries, (ruleBody c).1 = .branch .ruleBody c.line bodyText entries ∧
      ∀ entry ∈ entries, Shape .entry entry := by
  have each := shape_of_bodyEntries c
  unfold ruleBody
  split
  · exact ⟨[], [], rfl, by simp⟩
  · next entries stop _ found => exact ⟨_, entries, rfl, by simpa [found] using each⟩

theorem shape_of_rule {c stop : Cursor} (read : rule c = some (node, stop)) :
    Shape .statement node := by
  obtain ⟨header, found, same⟩ := Option.map_eq_some_iff.1 read
  obtain ⟨bodyText, entries, body, each⟩ := ruleBody_children c.nextLine
  unfold ruleHeader at found
  split at found
  · simp at found
  · next target left aimed =>
    split at found
    · split at found
      · simp only [Option.some.injEq] at found
        simp only [Prod.mk.injEq] at same
        rw [← same.1, ← found, body]
        exact .rule (shape_of_target? aimed) each
      · simp at found
    · simp at found

/-! Blocks and units. -/

/-- Whatever the reader takes for a body is one. -/
def ReadsBodies (body : BodyReader) : Prop :=
  ∀ ends c, Shape .body (body ends c).1

theorem shape_of_blockHeader {directive : Directive} (opens : directive.opensBlock = true)
    (oneLine : '\n' ∉ text) (read : blockHeader directive line text = some node) :
    Shape directive.testRole node := by
  obtain ⟨⟨found, left⟩, kept, rfl⟩ := Option.map_eq_some_iff.1 read
  have taken := (Option.filter_eq_some_iff.1 kept).1
  -- Words that open no block are excluded, so the last branch of the reader is the one for paths.
  cases directive <;> simp only [Directive.opensBlock, Bool.false_eq_true] at opens
  case ifHolds => exact condition_reads taken
  case ifDefined | ifUndefined =>
    obtain ⟨name, named, same⟩ := Option.map_eq_some_iff.1 taken
    simp only [Prod.mk.injEq] at same
    rw [← same.1]
    exact .name (Text.isName_of_name? named)
  case ifFile | ifNoFile =>
    simp only at taken
    split at taken
    · simp at taken
    · simp only [Option.some.injEq, Prod.mk.injEq] at taken
      rw [← taken.1]
      exact shape_of_phrase .path (argument_oneLine oneLine)

theorem shape_of_clauses {body : BodyReader} (reads : ReadsBodies body) {limit : Nat}
    {c stop : Cursor} (read : clauses body limit c = some (nodes, stop)) :
    ∃ each last ending, nodes = each ++ [.token last ending] ∧
      ∀ clause ∈ each, Shape .clause clause := by
  induction limit generalizing c nodes stop with
  | zero => simp [clauses] at read
  | succ limit ih =>
    simp only [clauses] at read
    split at read
    · split at read
      · simp at read
      · next test _ tested =>
        obtain ⟨⟨more, final⟩, further, same⟩ := Option.map_eq_some_iff.1 read
        obtain ⟨each, last, ending, rfl, shaped⟩ := ih further
        simp only [Prod.mk.injEq] at same
        refine ⟨_ :: each, last, ending, same.1.symm, ?_⟩
        refine List.forall_mem_cons.2 ⟨.elseIf ?_ (reads _ _), shaped⟩
        exact condition_reads (Option.filter_eq_some_iff.1 tested).1
    · split at read
      · obtain ⟨⟨more, final⟩, further, same⟩ := Option.map_eq_some_iff.1 read
        obtain ⟨each, last, ending, rfl, shaped⟩ := ih further
        simp only [Prod.mk.injEq] at same
        refine ⟨_ :: each, last, ending, same.1.symm, ?_⟩
        exact List.forall_mem_cons.2 ⟨.otherwise (reads _ _), shaped⟩
      · simp at read
    · simp only [Option.some.injEq, Prod.mk.injEq] at read
      exact ⟨[], _, _, read.1.symm, by simp⟩
    · simp at read

theorem shape_of_block {body : BodyReader} (reads : ReadsBodies body) {directive : Directive}
    {c stop : Cursor} (opens : directive.opensBlock = true)
    (read : block body directive c = some (node, stop)) : Shape .statement node := by
  simp only [block] at read
  split at read
  · simp at read
  · next test tested =>
    obtain ⟨⟨more, last⟩, closed, same⟩ := Option.map_eq_some_iff.1 read
    obtain ⟨each, line, ending, rfl, shaped⟩ := shape_of_clauses reads closed
    simp only [Prod.mk.injEq] at same
    rw [← same.1]
    exact .conditional opens (shape_of_blockHeader opens (c.newline_not_mem_here) tested) (reads _ _) shaped

theorem shape_of_lineDirective {directive : Directive} {c stop : Cursor}
    (read : lineDirective directive c = some (node, stop)) : Shape .statement node := by
  have oneLine := c.newline_not_mem_here
  cases directive <;> simp only [lineDirective] at read
  case error | warn | warning | message =>
    simp only [Option.some.injEq, Prod.mk.injEq] at read
    rw [← read.1]
    exact .diagnostic rfl (shape_of_phrase .message (argument_oneLine oneLine))
  case inclusion =>
    obtain ⟨found, taken, same⟩ := Option.map_eq_some_iff.1 read
    simp only [Prod.mk.injEq] at same
    exact same.1 ▸ shape_of_pathDirective oneLine (Or.inl rfl) taken
  case search =>
    obtain ⟨found, taken, same⟩ := Option.map_eq_some_iff.1 read
    simp only [Prod.mk.injEq] at same
    exact same.1 ▸ shape_of_pathDirective oneLine (Or.inr rfl) taken
  case undef =>
    obtain ⟨found, taken, same⟩ := Option.map_eq_some_iff.1 read
    simp only [Prod.mk.injEq] at same
    exact same.1 ▸ shape_of_undef taken
  all_goals simp at read

/-- A reader that may fail, with an unread span in its place. -/
theorem shape_of_getD {read : Option (Node × Cursor)} {fallback : Node × Cursor}
    (taken : ∀ found, read = some found → Shape .statement found.1)
    (unread : Shape .statement fallback.1) : Shape .statement (read.getD fallback).1 := by
  cases read with
  | none => exact unread
  | some found => exact taken found rfl

theorem shape_of_statement {body : BodyReader} (reads : ReadsBodies body) (c : Cursor) :
    Shape .statement (statement body c).1 := by
  unfold statement
  split
  · exact .comment fun found => c.newline_not_mem_here (Text.mem_of_mem_trimEnd found)
  · unfold directiveStatement
    split
    · exact .error
    · split
      · next opens => exact shape_of_getD (fun _ read => shape_of_block reads opens read) .error
      · exact shape_of_getD (fun _ read => shape_of_lineDirective read) .error
  · exact shape_of_getD (fun _ read => shape_of_rule read) .error
  · unfold assignmentOrRule
    split
    · exact .error
    · split
      · exact shape_of_getD (fun _ read => shape_of_rule read) .error
      · refine shape_of_getD (fun found read => ?_) .error
        obtain ⟨assigned, taken, same⟩ := Option.map_eq_some_iff.1 read
        exact same ▸ shape_of_assignment (c.newline_not_mem_here) taken

theorem shape_of_joinErrors {found : List Span} (each : ∀ span ∈ found, Shape .statement span.node) :
    ∀ span ∈ joinErrors found, Shape .statement span.node := by
  induction found with
  | nil => simp [joinErrors]
  | cons span rest ih =>
    have first := each span (by simp)
    have later := ih fun other member => each other (List.mem_cons_of_mem _ member)
    unfold joinErrors
    split
    · simpa using first
    · next next more joined =>
      rw [joined] at later
      split
      · refine List.forall_mem_cons.2 ⟨.error, fun other member => later other ?_⟩
        exact List.mem_cons_of_mem _ member
      · exact List.forall_mem_cons.2 ⟨first, later⟩

theorem shape_of_joinedNodes {found : List Span}
    (each : ∀ span ∈ found, Shape .statement span.node) :
    ∀ node ∈ (joinErrors found).map (·.node), Shape .statement node := by
  intro node member
  obtain ⟨span, inside, rfl⟩ := List.mem_map.1 member
  exact shape_of_joinErrors each span inside

theorem shape_of_spans (limit : Nat) (ends : List Directive) (c : Cursor) :
    ∀ span ∈ (spans limit ends c).1, Shape .statement span.node := by
  induction limit generalizing ends c with
  | zero => simp [spans]
  | succ limit ih =>
    have reads : ReadsBodies fun ends start => bodyOf start (spans limit ends start) :=
      fun ends start => .body (shape_of_joinedNodes (ih ends start))
    simp only [spans]
    split
    · simp
    · exact List.forall_mem_cons.2 ⟨shape_of_statement reads _, ih ends _⟩

theorem shape_of_parse (source : Text) : ∀ child ∈ (parse source).children, Shape .statement child :=
  shape_of_joinedNodes (shape_of_spans _ _ _)

end BmakeZig.Source
