import BmakeZig.Proofs.Environment.Expand
import BmakeZig.Proofs.Zig.Run
import BmakeZig.Render.Statement

/-! The expression for fragments has their text as its value, in every store that holds the variables
they refer to; and appending to a variable is reading it, the separator where there is one, and the
expression. -/
namespace BmakeZig

namespace Fragment

variable {environment : Environment} {store : Table} {values : Text → Text}
  {fragments : List Fragment}

/-- Every reference is to a live variable that the store has the value of. -/
def Backed (environment : Environment) (store : Table) (values : Text → Text)
    (fragments : List Fragment) : Prop :=
  ∀ name mode, reference name mode ∈ fragments →
    environment.contains name = true ∧ store.get? name = some (values name)

theorem yields_term {fragment : Fragment} (backed : Backed environment store values [fragment]) :
    Zig.Yields store 2 (fragment.term environment) (fragment.read values) := by
  cases fragment with
  | literal text => exact (Zig.yields_literal store text).mono (by omega)
  | reference name mode =>
    obtain ⟨live, found⟩ := backed name mode List.mem_cons_self
    have yields := Zig.yields_variable found
    simp only [term, live, if_true]
    cases mode with
    | recursive => exact yields.mono (by omega)
    | stripping => exact Zig.yields_withoutEndSlashes yields
    | immediate => exact yields.mono (by omega)

theorem yields_terms (backed : Backed environment store values fragments) :
    List.Forall₂ (Zig.Yields store 2) (fragments.map (term environment))
      (fragments.map (read values)) := by
  induction fragments with
  | nil => exact .nil
  | cons first fragments ih =>
    apply List.Forall₂.cons
    · apply yields_term
      intro name mode member
      exact backed name mode (List.mem_singleton.1 member ▸ List.mem_cons_self)
    · exact ih fun name mode member => backed name mode (List.mem_cons_of_mem _ member)

theorem yields_expression (backed : Backed environment store values fragments) :
    Zig.Yields store 3 (expression environment fragments) (readAll values fragments) := by
  have terms : Backed environment store values (merge fragments) :=
    fun name mode member => backed name mode (reference_mem_merge.1 member)
  rw [← readAll_merge]
  exact Zig.yields_sequence (yields_terms terms)

theorem newline_not_mem_term (environment : Environment) (fragment : Fragment) :
    '\n' ∉ fragment.term environment := by
  cases fragment with
  | literal text => exact Zig.newline_not_mem_literal text
  | reference name mode =>
    have value : '\n' ∉ (if environment.contains name then Zig.variableNamed name
        else Zig.processVariableOrEmpty name) := by
      split
      · exact Zig.newline_not_mem_variableNamed name
      · exact Zig.newline_not_mem_processVariableOrEmpty name
    cases mode with
    | stripping => exact Zig.newline_not_mem_withoutEndSlashes value
    | recursive | immediate => exact value

theorem newline_not_mem_expression (environment : Environment) (fragments : List Fragment) :
    '\n' ∉ expression environment fragments := by
  apply Zig.newline_not_mem_sequence
  intro part member
  obtain ⟨fragment, _, rfl⟩ := List.mem_map.1 member
  exact newline_not_mem_term environment fragment

end Fragment

namespace Render

/-- The separator between an old and a new part, unless one of the three is empty. -/
def between (previous stored separator : Text) : Text :=
  if previous.isEmpty || stored.isEmpty then [] else separator

theorem appended_eq (previous stored separator : Text) :
    Environment.appended previous stored separator =
      previous ++ between previous stored separator ++ stored := by
  unfold Environment.appended between
  split <;> simp

/-- The parts of an append statement between the variable and the value. -/
theorem between_parts (previous stored separator : Text) : ∃ texts : List Text,
    (if separator.isEmpty || previous.isEmpty || stored.isEmpty then []
      else [Zig.literal separator]) = texts.map Zig.literal ∧
      texts.flatten = between previous stored separator := by
  unfold between
  by_cases empty : (previous.isEmpty || stored.isEmpty) = true
  · refine ⟨[], ?_, by rw [if_pos empty]; rfl⟩
    rw [if_pos (by rw [Bool.or_assoc, empty, Bool.or_true]), List.map_nil]
  · rw [if_neg empty]
    rw [Bool.not_eq_true] at empty
    rw [Bool.or_assoc, empty, Bool.or_false]
    cases separator with
    | nil => exact ⟨[], rfl, rfl⟩
    | cons c separator => exact ⟨[c :: separator], rfl, by simp⟩

theorem execute_appendStatement {store : Table} {name old text value : Text}
    (found : store.get? name = some old) (yields : Zig.Yields store 3 text value)
    (oneLine : '\n' ∉ text) (previous stored separator : Text) :
    Zig.execute store (appendStatement name previous stored separator text) =
      some (store.put name (old ++ between previous stored separator ++ value)) := by
  obtain ⟨texts, middle, joined⟩ := between_parts previous stored separator
  have reading := (Zig.yields_variable found).mono (show 1 ≤ 3 by omega)
  have literals : List.Forall₂ (Zig.Yields store 3) (texts.map Zig.literal) texts := by
    rw [List.forall₂_map_left_iff, List.forall₂_same]
    exact fun text _ => (Zig.yields_literal store text).mono (by omega)
  have whole := Zig.yields_concat
    (.cons reading (List.rel_append literals (.cons yields .nil))) (by simp)
  have flat : (old :: (texts ++ [value])).flatten =
      old ++ between previous stored separator ++ value := by
    simp [joined]
  rw [flat] at whole
  have lines : ∀ part ∈ Zig.variableNamed name :: (texts.map Zig.literal ++ [text]), '\n' ∉ part := by
    intro part member
    rcases List.mem_cons.1 member with rfl | inside
    · exact Zig.newline_not_mem_variableNamed name
    · rcases List.mem_append.1 inside with between | last
      · obtain ⟨literal, _, rfl⟩ := List.mem_map.1 between
        exact Zig.newline_not_mem_literal literal
      · rw [List.mem_singleton.1 last]
        exact oneLine
  unfold appendStatement
  rw [middle]
  exact Zig.execute_set found whole (Zig.newline_not_mem_concat lines)

theorem execute_comment {text : Text} (oneLine : '\n' ∉ text) (store : Table) :
    Zig.execute store (comment text) = some store := by
  have slashes : ∃ rest, comment text = '/' :: rest ∧ '\n' ∉ comment text := by
    unfold comment
    split
    · next rest => exact ⟨'/' :: rest, rfl, by simpa using oneLine⟩
    · exact ⟨'/' :: text, rfl, by simpa using oneLine⟩
  obtain ⟨rest, whole, plain⟩ := slashes
  rw [Zig.execute_line plain, whole]
  exact Zig.passedOver_of_first (by decide) (by decide) (by decide) rest store

end Render

end BmakeZig
