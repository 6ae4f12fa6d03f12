import BmakeZig.Proofs.Render.Straight
import BmakeZig.Proofs.Render.Value
import BmakeZig.Proofs.Value.Inert

/-! The separator of an append reaches the stored value as it stands, where it is read again, and the
program as a literal, where it is not. The two come to the same for every value in front and every text
behind exactly where the separator is inert. -/
namespace BmakeZig

namespace Fragment

variable {fragments : List Fragment} {text value : Text}

/-- The fragments hold the text and no reference. -/
structure Spells (fragments : List Fragment) (text : Text) : Prop where
  whole : readAll (fun _ => []) fragments = text
  plain : ∀ name mode, reference name mode ∉ fragments

theorem written_append (left right : Text) :
    written (literal (left ++ right)) = written (literal left) ++ written (literal right) :=
  List.flatMap_append

theorem isEmpty_written (text : Text) : (written (literal text)).isEmpty = text.isEmpty := by
  cases text with
  | nil => rfl
  | cons c text => by_cases dollar : c = '$' <;> simp [written, dollar]

theorem Spells.toText_eq (spells : Spells fragments text) : toText fragments = written (literal text) := by
  obtain ⟨rfl, plain⟩ := spells
  induction fragments with
  | nil => rfl
  | cons first fragments ih =>
    have others := ih fun name mode member => plain name mode (List.mem_cons_of_mem _ member)
    cases first with
    | literal text =>
      rw [toText, List.flatMap_cons, ← toText, others, ← written_append]
      rfl
    | reference name mode => exact absurd List.mem_cons_self (plain name mode)

theorem Spells.cons_literal (spells : Spells fragments value) (text : Text) :
    Spells (cons (literal text) fragments) (text ++ value) where
  whole := by rw [readAll_cons, spells.whole, read]
  plain := fun name mode member => by simp [spells.plain] at member

theorem spells_nil : Spells [] [] where
  whole := rfl
  plain := by simp

/-- What is written of a text is cut into fragments that hold it, with whatever follows. -/
theorem Spells.written_append (spells : Spells (split value) text) (more : Text) :
    Spells (split (written (literal more) ++ value)) (more ++ text) := by
  rw [split_literal]
  exact spells.cons_literal more

theorem spells_written (text : Text) : Spells (split (written (literal text))) text := by
  have empty : Spells (split []) [] := by rw [split]; exact spells_nil
  simpa using empty.written_append text

theorem spells_inert (inert : isInert text = true) (more : Text) :
    Spells (split (text ++ written (literal more))) (text ++ more) := by
  rw [split_inert inert]
  simpa using spells_nil.cons_literal (text ++ more)

end Fragment

namespace Environment

variable {environment : Environment} {name value text : Text}

theorem expand?_of_spells (found : environment.get? name = some value)
    (spells : Fragment.Spells (Fragment.split value) text) :
    (environment.expand? name).map (·.value) = some text := by
  rw [← spells.whole]
  exact expand?_of_dead found fun inner mode member => absurd member (spells.plain inner mode)

/-- The stored value is read as the two texts with the inert separator between them. -/
theorem spells_appended {separator : Text} (inert : Fragment.isInert separator = true) (old text : Text) :
    Fragment.Spells
      (Fragment.split (appended (Fragment.written (.literal old)) (Fragment.written (.literal text))
        separator))
      (appended old text separator) := by
  unfold appended
  rw [Fragment.isEmpty_written, Fragment.isEmpty_written]
  split
  · rw [← Fragment.written_append]
    exact Fragment.spells_written (old ++ text)
  · rw [List.append_assoc, List.append_assoc]
    exact (Fragment.spells_inert inert text).written_append old

end Environment

namespace Render

variable {settings : Settings} {pass : Pass} {node : Node} {name old text : Text}

/-- The node appends the text, without a reference in it, to a live variable. The value stored for that
one is in written form without references too, and expands to `old`. -/
structure LiteralAppend (pass : Pass) (node : Node) (name old text : Text) : Prop where
  kind : node.kind = .assignment true false
  target : ∃ target, node.find? .identifier = some target ∧ target.text = name
  added : ∃ value found notes, node.namedChild? 1 = some value ∧
    fragments value pass = .ok found { pass with notes } ∧ Fragment.Spells found text
  previous : ∃ stored, pass.environment.get? name = some stored ∧
    Fragment.toText (Fragment.split stored) = stored ∧ Fragment.Spells (Fragment.split stored) old

/-- What is appended stands behind the old value, and the separator between the two where neither is
empty: for expansion in the rest of the pass, and in the variable once the statement has run. -/
def AppendAgrees (settings : Settings) (pass : Pass) (node : Node) (name old text : Text) : Prop :=
  let joined := Environment.appended old text settings.appendSeparator
  (pass.environment.expand? name).map (·.value) = some old ∧
    ∃ output after, assignment settings node true false pass = .ok output after ∧
      (after.environment.expand? name).map (·.value) = some joined ∧
      ∀ store : Table, store.get? name = some old → Zig.execute store output = some (store.put name joined)

namespace LiteralAppend

theorem live (append : LiteralAppend pass node name old text) :
    pass.environment.get? name = some (Fragment.written (.literal old)) := by
  obtain ⟨stored, live, canonical, spells⟩ := append.previous
  rw [live, ← canonical, spells.toText_eq]

/-- The program joins the parts with any separator; what is stored has it as it stands. -/
theorem run (append : LiteralAppend pass node name old text) (settings : Settings) :
    ∃ output after, assignment settings node true false pass = .ok output after ∧
      after.environment = pass.environment.append name (Fragment.written (.literal text))
        settings.appendSeparator ∧
      ∀ store : Table, store.get? name = some old →
        Zig.execute store output =
          some (store.put name (Environment.appended old text settings.appendSeparator)) := by
  have live := append.live
  obtain ⟨-, ⟨target, aimed, rfl⟩, ⟨value, found, notes, valued, written, spells⟩, -⟩ := append
  obtain ⟨notes, ran⟩ : ∃ notes, assignment settings node true false pass =
      .ok (assignmentText settings pass.environment target.text true found)
        { pass with environment := assigned settings pass.environment target.text true found, notes } :=
    assignment_ok aimed valued written
  refine ⟨_, _, ran, ?_, fun store holds => ?_⟩
  · simp only [assigned, if_true, spells.toText_eq]
  · have backed : Fragment.Backed pass.environment store (fun _ => []) found :=
      fun name mode member => absurd member (spells.plain name mode)
    have yields := Fragment.yields_expression backed
    rw [spells.whole] at yields
    have oneLine := Fragment.newline_not_mem_expression pass.environment found
    have middle : between (Fragment.written (.literal old)) (Fragment.toText found)
        settings.appendSeparator = between old text settings.appendSeparator := by
      rw [between, spells.toText_eq, Fragment.isEmpty_written, Fragment.isEmpty_written, between]
    simp only [assignmentText, live]
    rw [execute_appendStatement holds yields oneLine, middle, appended_eq]

theorem get?_append (append : LiteralAppend pass node name old text) (separator other : Text) :
    (pass.environment.append name (Fragment.written (.literal text)) separator).get? other =
      if other = name then some (Environment.appended (Fragment.written (.literal old))
        (Fragment.written (.literal text)) separator)
      else pass.environment.get? other := by
  rw [Environment.append, Environment.get?_assign, append.live, Option.getD_some]

theorem agrees (append : LiteralAppend pass node name old text)
    (inert : Fragment.isInert settings.appendSeparator = true) :
    AppendAgrees settings pass node name old text := by
  obtain ⟨output, after, ran, stored, executes⟩ := append.run settings
  refine ⟨Environment.expand?_of_spells append.live (Fragment.spells_written old), output, after, ran, ?_,
    executes⟩
  have found := append.get?_append settings.appendSeparator name
  rw [if_pos rfl] at found
  rw [stored]
  exact Environment.expand?_of_spells found (Environment.spells_appended inert old text)

end LiteralAppend

/-! Appends of plain text to one variable, which is all there is. -/

def single : Environment :=
  Environment.assign {} ['A'] ['a']

def appending (text : Text) : Node :=
  .branch (.assignment true false) 1 ("A += ".toList ++ text)
    [.leaf .identifier 1 ['A'], .token 1 "+=".toList, .leaf .value 1 text]

theorem get?_single (name : Text) : single.get? name = if name = ['A'] then some ['a'] else none :=
  Environment.get?_assign {} ['A'] ['a'] name

theorem literalAppend_appending (plain : '$' ∉ text) :
    LiteralAppend { environment := single } (appending text) ['A'] ['a'] text where
  kind := rfl
  target := ⟨_, rfl, rfl⟩
  added := by
    have spells := Fragment.spells_written text
    rw [Fragment.written_plain plain] at spells
    have kept := Fragment.substituteAll_deferred single 1 fun name => spells.plain name .immediate
    refine ⟨.leaf .value 1 text, (Fragment.substituteAll single 1 (Fragment.split text)).value,
      (Fragment.substituteAll single 1 (Fragment.split text)).notes, rfl, rfl, ?_⟩
    rwa [kept]
  previous := by
    have spells := Fragment.spells_written ['a']
    refine ⟨['a'], rfl, ?_, spells⟩
    exact (spells.toText_eq).trans rfl

/-- Only the separator can spoil these: behind a plain text stands a plain text. -/
theorem whole_of_agrees (plain : '$' ∉ text) (filled : text ≠ [])
    (agrees : AppendAgrees settings { environment := single } (appending text) ['A'] ['a'] text) :
    Fragment.literals (settings.appendSeparator ++ text) = settings.appendSeparator ++ text := by
  have append := literalAppend_appending plain
  obtain ⟨-, output, after, ran, expanded, -⟩ := agrees
  obtain ⟨_, _, same, stored, -⟩ := append.run settings
  cases ran.symm.trans same
  have joined : Environment.appended ['a'] text settings.appendSeparator =
      'a' :: (settings.appendSeparator ++ text) := by
    simp [Environment.appended, filled]
  have got := append.get?_append settings.appendSeparator
  rw [← stored, Fragment.written_plain (show '$' ∉ ['a'] by decide), Fragment.written_plain plain,
    joined] at got
  rw [joined, Environment.expand?_of_dead ((got ['A']).trans (if_pos rfl))] at expanded
  · exact (Fragment.whole_tail (Option.some.inj expanded)).1
  · intro inner mode _
    by_cases same : inner = ['A']
    · exact .inl same
    · rw [got, if_neg same]
      exact .inr ((get?_single inner).trans (if_neg same))

/-- Appending a text comes to the same in the pass and in the program, whatever the environment, exactly
where the separator is inert. -/
theorem append_agrees_iff (settings : Settings) :
    Fragment.isInert settings.appendSeparator = true ↔
      ∀ pass node name old text, LiteralAppend pass node name old text →
        AppendAgrees settings pass node name old text := by
  constructor
  · exact fun inert pass node name old text append => append.agrees inert
  · intro agrees
    apply Fragment.isInert_of_whole
    intro more plain filled
    exact whole_of_agrees plain filled (agrees _ _ _ _ _ (literalAppend_appending plain))

/-- A separator with a dollar sign in front of a space. -/
theorem spacedDollar_agrees :
    LiteralAppend { environment := single } (appending ['b']) ['A'] ['a'] ['b'] ∧
      AppendAgrees { appendSeparator := "$ ".toList } { environment := single } (appending ['b'])
        ['A'] ['a'] ['b'] := by
  have append := literalAppend_appending (show '$' ∉ ['b'] by decide)
  exact ⟨append, (append_agrees_iff _).1 (by decide) _ _ _ _ _ append⟩

/-- Of two dollar signs in the separator one is left where the stored value is read. -/
theorem doubledDollar_disagrees :
    LiteralAppend { environment := single } (appending ['b']) ['A'] ['a'] ['b'] ∧
      ¬AppendAgrees { appendSeparator := "$$".toList } { environment := single } (appending ['b'])
        ['A'] ['a'] ['b'] := by
  refine ⟨literalAppend_appending (by decide), fun agrees => ?_⟩
  have whole : Fragment.literals ("$$".toList ++ ['b']) = "$$".toList ++ ['b'] :=
    whole_of_agrees (by decide) (by decide) agrees
  have shorter := congrArg List.length whole
  rw [Fragment.literals, show "$$".toList ++ ['b'] = ['$', '$', 'b'] from rfl, Fragment.split_dollars,
    Fragment.literals_consLiteral, ← Fragment.literals] at shorter
  have least := Fragment.length_literals_le ['b']
  simp only [List.length_cons, List.length_nil] at shorter least
  omega

end Render

end BmakeZig
