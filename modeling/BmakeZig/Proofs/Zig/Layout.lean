import BmakeZig.Proofs.Text.Lines
import BmakeZig.Zig.Program

/-! Readings of the emitted text that go line by line. Where the state after a text follows from its
lines, and blanks around a line do not count, joined texts are read one after the other and
indentation changes nothing. -/
namespace BmakeZig.Zig

/-- The line without the blanks around it. -/
def statement (line : Text) : Text :=
  Text.trimStart (Text.trimEnd line)

theorem statement_indentLine (line : Text) : statement (indentLine line) = statement line := by
  unfold indentLine
  split
  · next empty => rw [List.isEmpty_iff.1 empty]
  · exact Text.trimStart_trimEnd_append (List.all_eq_true.1 (by decide)) line

theorem newline_not_mem_indentLine {line : Text} (oneLine : '\n' ∉ line) : '\n' ∉ indentLine line := by
  unfold indentLine
  split
  · simp
  · intro member
    rcases List.mem_append.1 member with inside | inside
    · exact absurd inside (by decide)
    · exact oneLine inside

structure ByLine {σ : Type} (run : σ → Text → Option σ) : Prop where
  nil (state : σ) : run state [] = some state
  append (state : σ) (left right : Text) :
    run state (left ++ '\n' :: right) = (run state left).bind fun state => run state right
  line (state : σ) {line other : Text} (oneLine : '\n' ∉ line) (otherLine : '\n' ∉ other)
    (same : statement line = statement other) : run state line = run state other

namespace ByLine

variable {σ : Type} {run : σ → Text → Option σ}

theorem joinWith (byLine : ByLine run) (state : σ) (texts : List Text) :
    run state (Text.joinWith ['\n'] texts) = texts.foldlM run state := by
  induction texts generalizing state with
  | nil => exact byLine.nil state
  | cons text texts ih =>
    cases texts with
    | nil => exact (bind_pure _).symm
    | cons next texts =>
      rw [Text.joinWith, List.append_assoc, List.singleton_append, byLine.append, List.foldlM_cons]
      · exact congrArg _ (funext fun state => ih state)
      · simp

theorem foldlM_congr (byLine : ByLine run) (state : σ) {lines others : List Text}
    (oneLine : ∀ line ∈ lines, '\n' ∉ line) (otherLine : ∀ line ∈ others, '\n' ∉ line)
    (same : lines.map statement = others.map statement) :
    lines.foldlM run state = others.foldlM run state := by
  induction lines generalizing state others with
  | nil =>
    rw [List.map_nil, eq_comm, List.map_eq_nil_iff] at same
    rw [same]
  | cons line lines ih =>
    obtain ⟨other, others, rfl, first, rest⟩ := List.map_eq_cons_iff.1 same.symm
    have head := byLine.line state (oneLine line List.mem_cons_self)
      (otherLine other List.mem_cons_self) first.symm
    rw [List.foldlM_cons, List.foldlM_cons, head]
    refine congrArg _ (funext fun state => ih state ?_ ?_ rest.symm)
    · exact fun line member => oneLine line (List.mem_cons_of_mem _ member)
    · exact fun line member => otherLine line (List.mem_cons_of_mem _ member)

theorem lines (byLine : ByLine run) (state : σ) (text : Text) :
    run state text = (Text.lines text).foldlM run state := by
  obtain ⟨rest, kind, same⟩ := Text.map_trimEnd_splitOn text
  have trimmed : rest.map statement = rest.map Text.trimStart := by rcases kind with rfl | rfl <;> rfl
  have whole : (Text.splitOn '\n' text).map statement =
      (Text.lines text ++ rest).map statement := by
    have started := congrArg (List.map Text.trimStart) same
    rw [List.map_append, List.map_map, List.map_map] at started
    rw [List.map_append, trimmed]
    exact started
  have split : ∀ line ∈ Text.splitOn '\n' text, '\n' ∉ line :=
    fun line member => Text.not_mem_of_mem_splitOn member
  have oneLine : ∀ line ∈ Text.lines text ++ rest, '\n' ∉ line := by
    intro line member
    rcases List.mem_append.1 member with inside | last
    · exact Text.newline_not_mem_lines inside
    · rcases kind with rfl | rfl
      · cases last
      · rw [List.mem_singleton.1 last]
        exact List.not_mem_nil
  conv_lhs => rw [← Text.joinWith_splitOn '\n' text, byLine.joinWith]
  rw [byLine.foldlM_congr state split oneLine whole, List.foldlM_append]
  -- Nothing is left over, or an empty line.
  rcases kind with rfl | rfl
  · exact bind_pure _
  · simp only [List.foldlM_cons, byLine.nil]
    exact bind_pure _

/-- Indentation does not count. -/
theorem indent (byLine : ByLine run) (state : σ) (text : Text) :
    run state (Zig.indent text) = run state text := by
  have oneLine : ∀ line ∈ (Text.lines text).map indentLine, '\n' ∉ line := by
    intro line member
    obtain ⟨inner, inside, rfl⟩ := List.mem_map.1 member
    exact newline_not_mem_indentLine (Text.newline_not_mem_lines inside)
  have same : ((Text.lines text).map indentLine).map statement =
      (Text.lines text).map statement := by
    rw [List.map_map]
    exact congrArg (List.map · _) (funext statement_indentLine)
  rw [Zig.indent, byLine.joinWith, byLine.lines state text]
  exact byLine.foldlM_congr state oneLine (fun line => Text.newline_not_mem_lines) same

end ByLine

end BmakeZig.Zig
