import BmakeZig.Proofs.Source.RoundTrip.Line

/-! Printed rules. A body is read entry by entry up to the first line that starts in the first column,
and every entry that prints something is read back. -/
namespace BmakeZig.Outline

open Source (Cursor Solid newline_not_mem_name isBlank_of_isModifier)

variable {c : Cursor} {tail : Text}

theorem bodyEntries_over (finished : Source.bodyLine c = none) : Source.bodyEntries c = ([], c) := by
  rw [Source.bodyEntries]
  split
  · rfl
  · next found => simp [finished] at found

theorem bodyEntries_line {filled : Cursor} (found : Source.bodyLine c = some filled) :
    Source.bodyEntries c =
      (Source.bodyEntry filled.line (Text.skipSpaces filled.here) ::
        (Source.bodyEntries filled.nextLine).1, (Source.bodyEntries filled.nextLine).2) := by
  rw [Source.bodyEntries]
  split
  · next finished => simp [finished] at found
  · next other same =>
    obtain rfl := Option.some.inj (same.symm.trans found)
    rfl

/-- A rule body goes on neither behind the end of the source nor with a line that is not indented. -/
theorem bodyLine_over (starts : Cursor.Starts c.rest) : Source.bodyLine c = none := by
  obtain ⟨line, rest⟩ := c
  cases rest with
  | nil =>
    have finished : Source.filledLine ⟨line, []⟩ = none := by
      rw [Source.filledLine]
      simp [Cursor.here, Cursor.below]
    simp [Source.bodyLine, finished]
  | cons first rest =>
    have solid : Text.isBlank first = false := starts first rfl
    have other : first ≠ '\n' := by
      rintro rfl
      exact absurd solid (by decide)
    have here : Source.filledLine ⟨line, first :: rest⟩ = some ⟨line, first :: rest⟩ := by
      rw [Source.filledLine]
      simp [Cursor.here, solid, other]
    rw [Source.bodyLine, here, Option.filter_some]
    refine if_neg ?_
    split
    · next same => simp_all [show Text.isBlank ' ' = true by decide]
    · next same => simp_all [show Text.isBlank '\t' = true by decide]
    · simp

theorem bodyLine_indented {text : Text} {first : Char} (faces : c.Faces ('\t' :: text) tail)
    (member : first ∈ text) (solid : Text.isBlank first = false) :
    Source.bodyLine c = some c := by
  have filled : (!c.here.all Text.isBlank) = true := by
    simp only [faces.here, Bool.not_eq_true', List.all_eq_false]
    exact ⟨first, List.mem_cons_of_mem _ member, by simp [solid]⟩
  have found : Source.filledLine c = some c := by
    rw [Source.filledLine, if_pos filled]
  rw [Source.bodyLine, found, Option.filter_some, faces.unread]
  rfl

theorem isModifier_of_mem {marks : Text} (modifiers : marks.all Source.isModifier = true) :
    ∀ c ∈ marks, Source.isModifier c = true :=
  List.all_eq_true.1 modifiers

theorem declaration_char (declaration : Declaration) {c : Char} (member : c ∈ declaration.1) :
    Text.isBlank c = false ∧ c ≠ ':' ∧ c ≠ '=' := by
  have holds := List.all_eq_true.1 declaration.2.2 c member
  simpa [and_assoc] using holds

theorem behindMarks_stops (command : Command) :
    ∀ c ∈ command.1.behindMarks.head?, Source.isModifier c = false := by
  obtain ⟨⟨marks, builtin, argument⟩, plain⟩ := command
  cases builtin with
  | some name => simp [CommandLine.behindMarks, Source.isModifier]
  | none =>
    intro c first
    have own : argument.1.head? = some c := first
    have holds := (plain rfl).1
    simpa [own] using holds

/-- The nodes of the marks, up to the first node of another kind. -/
theorem marks_children (line : Nat) (marks : Marks) (rest : List Node)
    (stops : ∀ node ∈ rest.head?, node.kind ≠ .commandMod) :
    let nodes := marks.1.map fun c => Node.leaf .commandMod line [c]
    let isMark : Node → Bool := fun child => child.kind = .commandMod
    (nodes ++ rest).dropWhile isMark = rest ∧
      ((nodes ++ rest).takeWhile isMark).flatMap (·.text) = marks.1 := by
  intro nodes isMark
  have marked : ∀ node ∈ nodes, isMark node = true := by
    intro node member
    obtain ⟨c, -, rfl⟩ := List.mem_map.1 member
    rfl
  have texts : nodes.flatMap (·.text) = marks.1 := by
    simp [nodes, List.flatMap_map, Node.leaf]
  rw [List.dropWhile_append_of_pos marked, List.takeWhile_append_of_pos marked]
  cases rest with
  | nil => simpa using texts
  | cons node rest => simpa [isMark, stops node rfl] using texts

theorem command_children (line : Nat) (command : Command) :
    ∃ text children, Source.command line command.print = .branch .buildCommand line text children ∧
      Command.ofNodes? children = some command := by
  -- What is printed behind the marks does not itself start with a mark.
  have marks : command.print.takeWhile Source.isModifier = command.1.marks.1 :=
    Text.takeWhile_append_stop (isModifier_of_mem command.1.marks.2) (behindMarks_stops command)
  have behind : command.print.dropWhile Source.isModifier = command.1.behindMarks :=
    Text.dropWhile_append_stop (isModifier_of_mem command.1.marks.2) (behindMarks_stops command)
  obtain ⟨⟨modifiers, builtin, argument⟩, plain⟩ := command
  refine ⟨_, _, rfl, ?_⟩
  rw [marks, behind]
  have last := argument.2.phrase_text .command line
  cases builtin with
  | some name =>
    have word : Source.builtin? ('~' :: (name.1 ++ ' ' :: argument.1)) =
        some ('~' :: name.1, ' ' :: argument.1) := by
      rw [Source.builtin?, Text.name?_append name.2 (by simp [Text.isNameChar])]
      rfl
    have split := marks_children line modifiers
      [.leaf .builtinCommand line ('~' :: name.1), Source.phrase .command line argument.1]
      (by simp [Node.leaf])
    simp only [CommandLine.behindMarks, List.cons_append, List.append_assoc, List.nil_append, word,
      skipSpaces_blank, argument.2.skip, Command.ofNodes?, split]
    simp only [Node.leaf, last, Node.branch, check?_val, Option.bind_eq_bind, Option.bind_some]
    exact check?_val ⟨_, plain⟩
  | none =>
    have split := marks_children line modifiers [Source.phrase .command line argument.1]
      (by simp [last, Node.branch])
    simp only [CommandLine.behindMarks, List.nil_append, List.append_nil, (plain rfl).2.1,
      argument.2.skip, Command.ofNodes?, split]
    simp only [last, Node.branch, check?_val, Option.bind_eq_bind, Option.bind_some]
    exact check?_val ⟨_, plain⟩

/-- The first character of a command line: a mark, a tilde, or that of a plain argument. -/
theorem head?_command {command : Command} {c : Char} (first : c ∈ command.print.head?) :
    Text.isBlank c = false ∧ c ≠ '#' := by
  obtain ⟨⟨⟨marks, modifiers⟩, builtin, argument⟩, plain⟩ := command
  cases marks with
  | cons mark marks =>
    obtain rfl : mark = c := by simpa [Command.print] using first
    refine ⟨isBlank_of_isModifier (isModifier_of_mem modifiers mark (by simp)), ?_⟩
    rintro rfl
    exact absurd (isModifier_of_mem modifiers '#' (by simp)) (by decide)
  | nil =>
    cases builtin with
    | some name =>
      obtain rfl : '~' = c := by simpa [Command.print, CommandLine.behindMarks] using first
      exact ⟨by decide, by decide⟩
    | none =>
      have own : c ∈ argument.1.head? := by
        simpa [Command.print, CommandLine.behindMarks] using first
      refine ⟨argument.2.starts c own, ?_⟩
      rintro rfl
      exact (plain rfl).2.2 rfl own

theorem entry_starts (entry : Entry) : Cursor.Starts entry.print := by
  cases entry with
  | remark text => exact text.2.1.starts
  | command line => exact fun c first => (head?_command first).1

theorem entry_filled {entry : Entry} (filled : entry.Filled) : entry.print ≠ [] := by
  cases entry with
  | remark text =>
    intro empty
    simpa [show text.1 = [] from empty] using text.2.2
  | command line => exact filled

theorem newline_not_mem_command (command : Command) : '\n' ∉ command.print := by
  obtain ⟨⟨⟨marks, modifiers⟩, builtin, argument⟩, plain⟩ := command
  have marked : '\n' ∉ marks := fun member => absurd (isModifier_of_mem modifiers '\n' member) (by decide)
  cases builtin with
  | some name =>
    simp [Command.print, CommandLine.behindMarks, marked, newline_not_mem_name name.2,
      argument.2.1]
  | none => simp [Command.print, CommandLine.behindMarks, marked, argument.2.1]

theorem newline_not_mem_entry (entry : Entry) : '\n' ∉ entry.print := by
  cases entry with
  | remark text => exact text.2.1.1
  | command line => exact newline_not_mem_command line

theorem ofNode?_bodyEntry (line : Nat) (entry : Entry) :
    Entry.ofNode? (Source.bodyEntry line entry.print) = some entry := by
  cases entry with
  | remark text =>
    obtain ⟨rest, marked⟩ : ∃ rest, text.1 = '#' :: rest := List.head?_eq_some_iff.1 text.2.2
    have read : Source.bodyEntry line text.1 = Source.comment line text.1 := by
      rw [marked, Source.bodyEntry]
    rw [Entry.print, read, Source.comment, text.2.1.2.2, Node.leaf, Entry.ofNode?, check?_val]
    rfl
  | command command =>
    obtain ⟨text, children, read, named⟩ := command_children line command
    have plain : Source.bodyEntry line command.print = Source.command line command.print := by
      unfold Source.bodyEntry
      split
      · next same =>
        have first : '#' ∈ command.print.head? := by simp [same]
        exact absurd rfl (head?_command first).2
      · rfl
    rw [Entry.print, plain, read, Node.branch, Entry.ofNode?, named]
    rfl

/-- A rule body is read entry by entry, up to the first line that is not indented. -/
theorem bodyEntries_printed (entries : List Entry) (filled : ∀ entry ∈ entries, entry.Filled)
    (starts : Cursor.Starts tail) (unread : c.rest = entries.flatMap Entry.line ++ tail) :
    (Source.bodyEntries c).1.mapM Entry.ofNode? = some entries ∧
      (Source.bodyEntries c).2.rest = tail := by
  induction entries generalizing c with
  | nil =>
    have finished : Source.bodyLine c = none := bodyLine_over (by simpa [unread] using starts)
    rw [bodyEntries_over finished]
    exact ⟨rfl, unread⟩
  | cons entry entries ih =>
    have faces : c.Faces ('\t' :: entry.print) (entries.flatMap Entry.line ++ tail) := by
      refine ⟨by simp [unread, Entry.line], ?_⟩
      simpa using newline_not_mem_entry entry
    obtain ⟨first, rest, shape⟩ := List.exists_cons_of_ne_nil (entry_filled (filled entry (by simp)))
    have solid : Text.isBlank first = false := entry_starts entry first (by simp [shape])
    have found : Source.bodyLine c = some c := bodyLine_indented faces (by simp [shape]) solid
    have unindented : Text.skipSpaces c.here = entry.print := by
      have kept := (Solid.singleton solid).skip rest
      rw [faces.here, Text.skipSpaces, List.dropWhile_cons_of_pos (by decide), shape]
      exact kept
    obtain ⟨others, stop⟩ := ih (fun other member => filled other (List.mem_cons_of_mem _ member))
      (c := c.nextLine) (by rw [faces.nextLine])
    rw [bodyEntries_line found, unindented, List.mapM_cons, ofNode?_bodyEntry, others]
    exact ⟨rfl, stop⟩

theorem ruleBody_printed (entries : List Entry) (filled : ∀ entry ∈ entries, entry.Filled)
    (starts : Cursor.Starts tail) (unread : c.rest = entries.flatMap Entry.line ++ tail) :
    ∃ text children stop, Source.ruleBody c = (.branch .ruleBody c.line text children, stop) ∧
      children.mapM Entry.ofNode? = some entries ∧ stop.rest = tail := by
  obtain ⟨read, finished⟩ := bodyEntries_printed entries filled starts unread
  unfold Source.ruleBody
  split
  · next stop same =>
    rw [same] at read finished
    exact ⟨[], [], stop, rfl, read, finished⟩
  · next children stop _ same =>
    rw [same] at read finished
    exact ⟨_, children, stop, rfl, read, finished⟩

theorem ruleHeader_printed (line : Nat) (target : Target) :
    ∃ node, Source.ruleHeader line (target.print ++ [':']) = some [node, .token line [':']] ∧
      Target.ofNode? node = some target := by
  cases target with
  | always =>
    refine ⟨.leaf .always line Source.alwaysTarget, ?_, rfl⟩
    simp [Source.ruleHeader, Source.target?, Target.print, Text.after?_append, Text.skipSpaces,
      Text.isSpace, Source.atLineEnd]
  | declared declaration =>
    obtain ⟨rest, dotted⟩ := List.head?_eq_some_iff.1 declaration.2.1
    have cut : Text.cutAt? ':' (declaration.1 ++ [':']) = some (declaration.1, []) :=
      Text.cutAt?_append (fun member => (declaration_char declaration member).2.1 rfl) []
    have kept : Text.trimEnd declaration.1 = declaration.1 :=
      (Text.Firm.of_solid (by simp [dotted]) fun _ member =>
        (declaration_char declaration member).1).trimEnd_eq
    have unblank : declaration.1.any Text.isBlank = false := by
      simpa using fun c member => (declaration_char declaration member).1
    have unequal : '=' ∉ declaration.1 := fun member =>
      (declaration_char declaration member).2.2 rfl
    have other : Text.after? Source.alwaysTarget (declaration.1 ++ [':']) = none := by
      rw [dotted]
      rfl
    have read : Source.target? line (declaration.1 ++ [':']) =
        some (.leaf .targetDecl line declaration.1, [':']) := by
      unfold Source.target?
      simp only [other]
      split
      · simp [cut, kept, unblank, unequal]
      · next undotted => exact absurd (by simp [dotted]) (undotted (rest ++ [':']))
    refine ⟨.leaf .targetDecl line declaration.1, ?_, ?_⟩
    · simp [Source.ruleHeader, Target.print, read, Text.skipSpaces, Text.isSpace, Source.atLineEnd]
    · simp [Node.leaf, Target.ofNode?, check?_val]

theorem newline_not_mem_target (target : Target) : '\n' ∉ target.print := by
  cases target with
  | always => decide
  | declared declaration =>
    exact fun member => absurd (declaration_char declaration member).1 (by decide)

/-- Both kinds of target lead to the reader of rules. -/
theorem statement_rule {body : Source.BodyReader} {target : Target}
    (faces : c.Faces (target.print ++ [':']) tail) :
    Source.statement body c = (Source.rule c).getD (Source.errorLine c) := by
  cases target with
  | always =>
    have word : Text.isName Source.alwaysTarget = true := by decide
    have found : Text.name? c.here = some (Source.alwaysTarget, [':']) := by
      rw [faces.here]
      exact Text.name?_append word (by simp [Text.isNameChar])
    rw [statement_name word (faces.unread.trans (List.append_assoc ..)), Source.assignmentOrRule,
      found]
    rfl
  | declared declaration =>
    obtain ⟨rest, dotted⟩ := List.head?_eq_some_iff.1 declaration.2.1
    rw [Source.statement, faces.unread, Target.print, dotted]
    rfl

theorem rule_taken {body : Source.BodyReader} {target : Target} {entries : List Entry}
    (filled : ∀ entry ∈ entries, entry.Filled) (starts : Cursor.Starts tail)
    (unread : c.rest = (Statement.rule target entries).print ++ tail) :
    Taken (Source.statement body c) (.rule target entries) tail := by
  have faces : c.Faces (target.print ++ [':']) (entries.flatMap Entry.line ++ tail) := by
    refine ⟨by simp [unread, Statement.print], ?_⟩
    simp [newline_not_mem_target target]
  obtain ⟨node, header, named⟩ := ruleHeader_printed c.line target
  obtain ⟨text, children, stop, inside, read, finished⟩ := ruleBody_printed (c := c.nextLine) entries
    filled starts (by rw [faces.nextLine])
  rw [statement_rule faces, Source.rule, faces.here, header, Option.map_some, Option.getD_some,
    inside]
  refine ⟨?_, by simp [Node.branch], ?_⟩
  · simp [Node.branch, Statement.ofNode?, named, read]
  · rw [Cursor.rest_skipBlank (by rwa [finished])]
    exact finished

end BmakeZig.Outline
