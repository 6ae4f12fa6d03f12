import BmakeZig.Proofs.Source.Placement.Line

/-! Where a rule and its commands stand. A rule reaches up to the last line of its body that holds
something. -/
namespace BmakeZig.Source

variable {line : Nat} {text left : Text} {node : Node} {nodes : List Node}
  {c : Cursor} {first : Char}

theorem laid_marks {marks rest : Text} (single : '\n' ∉ marks) (laid : Laid line rest nodes) :
    Laid line (marks ++ rest) ((marks.map fun c => .leaf .commandMod line [c]) ++ nodes) := by
  induction marks with
  | nil => exact laid
  | cons mark marks ih =>
    rw [List.mem_cons, not_or] at single
    exact .first (sound_leaf (by decide) line [mark]) rfl (by simpa [Node.leaf] using single.1)
      (ih single.2)

/-- The built-in command a line names, if it does, with what is left of the line. -/
theorem laid_builtin (line : Nat) (single : '\n' ∉ text) :
    let (builtin, rest) :=
      match builtin? text with
      | some (name, left) => ([Node.leaf .builtinCommand line name], left)
      | none => ([], text)
    '\n' ∉ rest ∧ (∀ child ∈ builtin, Text.Firm child.text) ∧
      ∀ nodes, Laid line rest nodes → Laid line text (builtin ++ nodes) := by
  cases found : builtin? text with
  | none => exact ⟨single, by simp, fun nodes laid => laid⟩
  | some named =>
    obtain ⟨name, left⟩ := named
    unfold builtin? at found
    split at found
    · next behind =>
      obtain ⟨⟨word, after⟩, read, same⟩ := Option.map_eq_some_iff.1 found
      obtain ⟨rfl, rfl⟩ := Prod.mk.inj same
      have whole : '~' :: behind = ('~' :: word) ++ after := by
        rw [Text.name?_eq_append read, List.cons_append]
      rw [whole, List.mem_append, not_or] at single
      refine ⟨single.2, ?_, fun nodes laid => ?_⟩
      · simpa [Node.leaf] using (firm_name (Text.isName_of_name? read)).append_left ['~']
      · rw [whole]
        exact .first (sound_leaf (by decide) line _) rfl single.1 laid
    · simp at found

theorem command_placed (single : '\n' ∉ text) : Sound (command line text) := by
  have split : text = text.takeWhile isModifier ++ text.dropWhile isModifier :=
    List.takeWhile_append_dropWhile.symm
  have apart := single
  rw [split, List.mem_append, not_or] at apart
  obtain ⟨rest, solid, behind⟩ := laid_builtin line apart.2
  have last := not_mem_skipSpaces rest
  -- Marks, the built-in if there is one, and the argument, which may be empty.
  refine sound_branch rfl (Laid.trimLine ?_ single ?_ (sound_phrase rfl last) rfl (phrase_ending ..))
  · rw [List.append_assoc]
    conv => arg 2; rw [split]
    exact laid_marks apart.1 (behind _ (laid_phrase rfl rest))
  · intro child member
    rcases List.mem_append.1 member with mark | named
    · obtain ⟨c, found, rfl⟩ := List.mem_map.1 mark
      exact ⟨[], c, rfl, isBlank_of_isModifier (List.mem_takeWhile_imp found)⟩
    · exact solid child named

theorem bodyEntry_placed (line : Nat) (single : '\n' ∉ text) :
    Sound (bodyEntry line text) ∧ (bodyEntry line text).line = line ∧
      (bodyEntry line text).text = Text.trimEnd text := by
  unfold bodyEntry
  split
  · exact ⟨sound_leaf (by decide) line _, rfl, rfl⟩
  · exact ⟨command_placed single, rfl, rfl⟩

theorem filledLine_moves {filled : Cursor} (found : filledLine c = some filled) :
    (∃ skipped, c.Moves skipped filled) ∧ ∃ d ∈ filled.here, Text.isBlank d = false := by
  fun_induction filledLine c with
  | case1 c some_filled =>
    obtain rfl := Option.some.inj found
    simp only [Bool.not_eq_true', List.all_eq_false] at some_filled
    obtain ⟨d, member, solid⟩ := some_filled
    exact ⟨⟨[], .none c⟩, d, member, by simpa using solid⟩
  | case2 => simp at found
  | case3 c _ first rest below shorter ih =>
    obtain ⟨⟨skipped, moves⟩, some_solid⟩ := ih found
    obtain ⟨ending, next⟩ := c.moves_nextLine
    have same : c.nextLine = ⟨c.line + 1, rest⟩ := by rw [Cursor.nextLine, below]
    rw [same] at next
    exact ⟨⟨_, next.trans moves⟩, some_solid⟩

/-- An entry on a line on which there is something. -/
theorem laid_bodyEntry (line : Nat) {d : Char} (single : '\n' ∉ text) (member : d ∈ text)
    (solid : Text.isBlank d = false) :
    Laid line text [bodyEntry line (Text.skipSpaces text)] ∧
      Text.Firm (bodyEntry line (Text.skipSpaces text)).text := by
  obtain ⟨sound, own, cut⟩ := bodyEntry_placed line (not_mem_skipSpaces single)
  obtain ⟨blanks, split, -⟩ := Text.trimEnd_split (Text.skipSpaces text)
  have spaces : text = text.takeWhile Text.isSpace ++ Text.skipSpaces text :=
    List.takeWhile_append_dropWhile.symm
  -- The character is no space, so it is not among those that are skipped.
  have kept : d ∈ Text.skipSpaces text := by
    rw [spaces] at member
    refine (List.mem_append.1 member).resolve_left fun space => ?_
    simp [Text.isBlank_of_isSpace (List.mem_takeWhile_imp space)] at solid
  have shape : text = text.takeWhile Text.isSpace ++
      ((bodyEntry line (Text.skipSpaces text)).text ++ blanks) := by
    rw [cut, ← split, ← spaces]
  have front : '\n' ∉ text.takeWhile Text.isSpace ++ (bodyEntry line (Text.skipSpaces text)).text := by
    rw [shape, ← List.append_assoc, List.mem_append, not_or] at single
    exact single.1
  have laid := Laid.word sound own front (.done : Laid line blanks [])
  rw [← shape] at laid
  exact ⟨laid, cut ▸ Text.firm_trimEnd kept solid⟩

theorem bodyEntries_placed (c : Cursor) :
    ∃ text, c.Moves text (bodyEntries c).2 ∧ Laid c.line text (bodyEntries c).1 ∧
      ∀ entry ∈ (bodyEntries c).1, Text.Firm entry.text := by
  fun_induction bodyEntries c with
  | case1 c finished => exact ⟨[], .none c, .done, by simp⟩
  | case2 c filled found shorter rest ih =>
    simp only [bodyLine, Option.filter_eq_some_iff] at found
    obtain ⟨⟨skipped, moves⟩, d, member, solid⟩ := filledLine_moves found.1
    obtain ⟨ending, next⟩ := filled.moves_nextLine
    obtain ⟨text, last, laid, firm⟩ := ih
    have way := moves.trans next
    obtain ⟨entry, kept⟩ := laid_bodyEntry filled.line filled.newline_not_mem_here member solid
    refine ⟨_, way.trans last, ?_, ?_⟩
    · have first := entry.extend ending
      rw [way.line] at laid
      rw [show Laid filled.line = Laid (c.line + skipped.count '\n') by rw [moves.line]] at first
      exact first.behind.append laid
    · intro other belongs
      rcases List.mem_cons.1 belongs with rfl | later
      · exact kept
      · exact firm other later

theorem ruleBody_placed (c : Cursor) :
    ∃ behind, c.Moves ((ruleBody c).1.text ++ behind) (ruleBody c).2 ∧ Sound (ruleBody c).1 ∧
      (ruleBody c).1.line = c.line := by
  obtain ⟨text, moves, laid, firm⟩ := bodyEntries_placed c
  unfold ruleBody
  split
  · next stop same =>
    rw [same] at moves
    exact ⟨text, moves, sound_leaf (by decide) c.line [], rfl⟩
  · next entries stop _ same =>
    rw [same] at moves laid firm
    obtain ⟨blanks, split, -⟩ := Text.trimEnd_split text
    rw [moves.upTo]
    refine ⟨blanks, ?_, sound_branch rfl (laid.trimEnd firm), rfl⟩
    simpa [Node.branch, ← split] using moves

theorem target?_placed {target : Node} (read : target? line text = some (target, left)) :
    text = target.text ++ left ∧ target.line = line ∧ Sound target := by
  simp only [target?] at read
  split at read
  · next rest found =>
    obtain ⟨rfl, rfl⟩ := Prod.mk.inj (Option.some.inj read)
    exact ⟨Text.eq_append_of_after? found, rfl, sound_leaf (by decide) line _⟩
  · split at read
    · split at read
      · simp at read
      · next head rest cut =>
        split at read
        · simp at read
        · obtain ⟨rfl, rfl⟩ := Prod.mk.inj (Option.some.inj read)
          refine ⟨?_, rfl, sound_leaf (by decide) line _⟩
          -- The target is what stands before the colon, without the blanks there.
          have whole := Text.eq_append_of_cutAt? cut
          have kept := (Text.trimEnd_isPrefix head).trans ⟨':' :: rest, whole.symm⟩
          exact (List.prefix_iff_eq_append.1 kept).symm
    · simp at read

theorem laid_ruleHeader (single : '\n' ∉ text) (read : ruleHeader line text = some nodes) :
    Laid line text nodes := by
  simp only [ruleHeader] at read
  split at read
  · simp at read
  · next target left aimed =>
    obtain ⟨whole, own, sound⟩ := target?_placed aimed
    split at read
    · next after next =>
      split at read
      · obtain rfl := Option.some.inj read
        obtain ⟨gap, spaces⟩ := skipSpaces_split left
        have shape : text = target.text ++ (gap ++ ([':'] ++ after)) := by
          rw [whole, spaces, next]
          rfl
        rw [shape] at single ⊢
        simp only [List.mem_append, not_or] at single
        exact .first sound own single.1
          (.word (sound_token line [':']) rfl (by simp [Node.token, single]) .done)
      · simp at read
    · simp at read

/-- A statement whose text goes all the way to the place where it stops. -/
theorem passes_upTo {kind : Kind} {stop : Cursor} (opens : Opens c first) (plain : kind.isPlain = true)
    {ending : Text} (moves : c.Moves (c.here ++ ending) stop)
    (laid : Laid c.line (c.here ++ ending) nodes) :
    Passes c (.branch kind c.line (c.upTo stop) nodes, stop) := by
  obtain ⟨rest, here⟩ := opens.here
  rw [moves.upTo]
  refine ⟨sound_branch plain laid, rfl, by simp [Node.branch, here], [], ?_, by simp [MayLeave]⟩
  simpa [Node.branch] using moves

theorem rule_passes {found : Node × Cursor} (opens : Opens c first) (read : rule c = some found) :
    Passes c found := by
  obtain ⟨header, headed, rfl⟩ := Option.map_eq_some_iff.1 read
  obtain ⟨ending, next⟩ := c.moves_nextLine
  obtain ⟨behind, inside, sound, own⟩ := ruleBody_placed c.nextLine
  have whole := next.trans inside
  rw [List.append_assoc] at whole
  have last := Laid.alone sound behind
  rw [own, next.line] at last
  refine passes_upTo opens rfl whole ?_
  rw [← List.append_assoc]
  exact ((laid_ruleHeader c.newline_not_mem_here headed).extend ending).append last

end BmakeZig.Source
