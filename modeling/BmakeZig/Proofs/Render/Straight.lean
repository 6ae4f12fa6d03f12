import BmakeZig.Proofs.Render.Plan
import BmakeZig.Proofs.Value.Fragment

/-! Statements that run straight through: comments, assignments and undefinitions. Rendering one
reads nothing of the pass but its environment and changes nothing but that and the notes. What it
comes to is said once here, in `Effect`. -/
namespace BmakeZig

namespace Fragment

variable {environment : Environment} {line : Nat} {fragments : List Fragment} {name : Text} {mode : Mode}

theorem substituteAll_value (environment : Environment) (line : Nat) (fragments : List Fragment) :
    (substituteAll environment line fragments).value =
      fragments.flatMap fun fragment => (substitute environment line fragment).value := by
  simp only [substituteAll, Noted.map, Noted.each, List.map_map, List.flatMap]
  rfl

/-- References that are not immediate stay as they are. -/
theorem substituteAll_deferred (environment : Environment) (line : Nat)
    (deferred : ∀ name, reference name .immediate ∉ fragments) :
    (substituteAll environment line fragments).value = fragments := by
  rw [substituteAll_value]
  induction fragments with
  | nil => rfl
  | cons first fragments ih =>
    rw [List.flatMap_cons, ih fun name member => deferred name (List.mem_cons_of_mem _ member)]
    rcases first with text | ⟨name, _ | _ | _⟩
    · rfl
    · rfl
    · rfl
    · exact absurd List.mem_cons_self (deferred name)

theorem named_substitute {fragment : Fragment} (named : Named [fragment]) :
    Named (substitute environment line fragment).value := by
  unfold substitute
  split
  · split
    · next value _ =>
      intro inner mode member
      simp only [Noted.each, List.map_map, List.mem_map, Function.comp_def] at member
      obtain ⟨original, inside, same⟩ := member
      unfold settle at same
      -- An immediate reference has become a literal; any other one stands in the stored value.
      split at same
      · split at same <;> simp [Noted.map] at same
      · change original = _ at same
        rw [same] at inside
        exact named_split value inner mode inside
    · intro inner mode member
      simp at member
  · exact named

theorem named_substituteAll (named : Named fragments) :
    Named (substituteAll environment line fragments).value := by
  intro name mode member
  rw [substituteAll_value, List.mem_flatMap] at member
  obtain ⟨fragment, inside, found⟩ := member
  refine named_substitute ?_ name mode found
  intro inner other same
  rw [← List.mem_singleton.1 same] at inside
  exact named inner other inside

theorem reference_not_mem_freeze :
    reference name mode ∉ (Noted.each (freeze environment line) fragments).value := by
  simp only [Noted.each, List.map_map, List.mem_map, not_exists, not_and]
  intro fragment _ same
  cases fragment with
  | literal text => simp [freeze] at same
  | reference inner other =>
    simp only [Function.comp, freeze] at same
    split at same <;> simp [Noted.map] at same

end Fragment

namespace Node

/-- A comment, an assignment or an undefinition. -/
def isStraight (node : Node) : Bool :=
  match node.kind with
  | .comment | .assignment .. | .undef => true
  | _ => false

/-- The variables that a statement writes. -/
def writes (node : Node) : List Text :=
  match node.kind with
  | .assignment .. | .undef => (node.find? .identifier).toList.map (·.text)
  | _ => []

end Node

namespace Render

variable {context : Context} {follow : Node → Render Text} {node : Node}

/-- What is left of the value of an assignment once immediate references are put in place. -/
def left (environment : Environment) (node : Node) : List Fragment :=
  match node.namedChild? 1 with
  | none => []
  | some value =>
    match fragments value { environment } with
    | .ok found _ => found
    | .error _ _ => []

/-- The action gives back the fragments and does nothing, or it fails. -/
def Collects (action : Render (List Fragment)) : Prop :=
  (∃ found, Fragment.Named found ∧ action = pure found) ∨ ∃ fault, action = throw fault

theorem collects_reference (mode : Mode) (shape : Shape .expansion node) :
    (∃ name, Text.isName name = true ∧ reference node mode = pure (.reference name mode)) ∨
      ∃ fault, reference node mode = throw fault := by
  cases shape with
  | plain inner =>
    cases inner with
    | name named => exact .inl ⟨_, named, rfl⟩
  | modified => exact .inr ⟨_, rfl⟩

theorem collects_childFragments (shape : Shape .piece node) : Collects (childFragments node) := by
  cases shape with
  | literal => exact .inl ⟨_, Fragment.named_split _, rfl⟩
  | expanded inner =>
    have referring := fun mode => collects_reference mode inner
    obtain ⟨mode, kind⟩ := inner.expansionMode
    unfold childFragments
    rw [kind]
    rcases referring mode with ⟨name, named, found⟩ | ⟨fault, failed⟩
    · refine .inl ⟨[.reference name mode], ?_, by simp [found]⟩
      intro inner other member
      cases List.mem_singleton.1 member
      exact named
    · exact .inr ⟨fault, by simp [failed]; rfl⟩

theorem collects_collect {nodes : List Node} (pieces : ∀ child ∈ nodes, Shape .piece child) :
    Collects (collect nodes) := by
  induction nodes with
  | nil => exact .inl ⟨[], fun _ _ member => absurd member (by simp), rfl⟩
  | cons child rest ih =>
    have later := ih fun other member => pieces other (List.mem_cons_of_mem _ member)
    rw [collect]
    rcases collects_childFragments (pieces child List.mem_cons_self) with
      ⟨first, named, found⟩ | ⟨fault, failed⟩
    · rcases later with ⟨others, namedOthers, foundOthers⟩ | ⟨fault, failed⟩
      · refine .inl ⟨first ++ others, ?_, by simp [found, foundOthers]⟩
        intro name mode member
        rcases List.mem_append.1 member with inside | inside
        · exact named name mode inside
        · exact namedOthers name mode inside
      · exact .inr ⟨fault, by rw [found, failed]; rfl⟩
    · exact .inr ⟨fault, by rw [failed]; rfl⟩

theorem collects_writtenFragments (shape : Shape (.phrase .value) node) :
    Collects (writtenFragments node) := by
  cases shape with
  | @phrase _ line text children _ pieces =>
    by_cases empty : children.isEmpty = true
    · refine .inl ⟨Fragment.split text, Fragment.named_split text, ?_⟩
      simp [writtenFragments, Node.branch, empty]
    · have written : writtenFragments (.branch .value line text children) = collect children := by
        simp [writtenFragments, Node.branch, empty]
      rw [written]
      exact collects_collect pieces

theorem fragments_of_written {written : List Fragment} (spelled : writtenFragments node = pure written)
    (pass : Pass) :
    ∃ notes, fragments node pass =
      .ok (Fragment.substituteAll pass.environment node.line written).value { pass with notes } := by
  unfold fragments
  rw [spelled]
  exact ⟨_, rfl⟩

/-- The fragments of a value depend on the environment alone. -/
theorem fragments_value (shape : Shape (.phrase .value) node) :
    (∃ found : Environment → List Fragment, (∀ environment, Fragment.Named (found environment)) ∧
      ∀ pass, ∃ notes,
        fragments node pass = .ok (found pass.environment) { pass with notes }) ∨
      ∃ fault, ∀ pass, fragments node pass = .error fault pass := by
  rcases collects_writtenFragments shape with ⟨written, named, found⟩ | ⟨fault, failed⟩
  · exact .inl ⟨fun environment =>
      (Fragment.substituteAll environment node.line written).value,
      fun environment => Fragment.named_substituteAll named, fragments_of_written found⟩
  · refine .inr ⟨fault, fun pass => ?_⟩
    unfold fragments
    rw [failed]
    rfl

/-! What a statement comes to. -/

theorem bind_ok {α β : Type} {action : Render α} {next : α → Render β} {pass middle : Pass} {value : α}
    (run : action pass = .ok value middle) : (action >>= next) pass = next value middle := by
  simp only [bind, EStateM.bind, run]

/-- Where two actions succeed one after the other, the first does, and the second behind it. -/
theorem of_bind_ok {α β : Type} {action : Render α} {next : α → Render β} {pass after : Pass} {value : β}
    (run : (action >>= next) pass = .ok value after) :
    ∃ first middle, action pass = .ok first middle ∧ next first middle = .ok value after := by
  simp only [bind, EStateM.bind] at run
  split at run
  · next first middle done => exact ⟨first, middle, done, run⟩
  · cases run

theorem of_require {α : Type} {expected : String} {found : Option α} {pass after : Pass} {value : α}
    (ran : require node expected found pass = .ok value after) : found = some value ∧ after = pass := by
  cases found with
  | none => cases ran
  | some own =>
    cases ran
    exact ⟨rfl, rfl⟩

/-- The text of an assignment of the fragments that are kept. -/
def assignmentText (settings : Settings) (environment : Environment) (name : Text) (appends : Bool)
    (kept : List Fragment) : Text :=
  let value := Fragment.expression environment kept
  match appends, environment.get? name with
  | true, some previous =>
    appendStatement name previous (Fragment.toText kept) settings.appendSeparator value
  | _, _ => Zig.set name value

/-- The environment after an assignment of the fragments that are kept. -/
def assigned (settings : Settings) (environment : Environment) (name : Text) (appends : Bool)
    (kept : List Fragment) : Environment :=
  if appends then environment.append name (Fragment.toText kept) settings.appendSeparator
  else environment.assign name (Fragment.toText kept)

theorem append_ok (settings : Settings) (name : Text) (kept : List Fragment) (pass : Pass) :
    ∃ notes, (do
      let previous := (← environment).get? name
      append name (Fragment.toText kept) settings.appendSeparator
      match previous with
      | none => return Zig.set name (Fragment.expression pass.environment kept)
      | some previous =>
        return appendStatement name previous (Fragment.toText kept) settings.appendSeparator
          (Fragment.expression pass.environment kept) : Render Text) pass =
      .ok (assignmentText settings pass.environment name true kept)
        { pass with environment := assigned settings pass.environment name true kept, notes } := by
  have now : environment pass = .ok pass.environment pass := rfl
  have stored : append name (Fragment.toText kept) settings.appendSeparator pass = .ok () _ := rfl
  refine ⟨pass.notes ++ [pass.environment.noteAppend name (Fragment.toText kept)
    settings.appendSeparator], ?_⟩
  rw [bind_ok now, bind_ok stored]
  unfold assignmentText
  cases pass.environment.get? name <;> rfl

theorem assignment_ok {settings : Settings} {appends expands : Bool} {target value : Node}
    {found : List Fragment} {pass : Pass} {notes : List Note}
    (aimed : node.find? .identifier = some target) (valued : node.namedChild? 1 = some value)
    (written : fragments value pass = .ok found { pass with notes }) :
    ∃ notes, assignment settings node appends expands pass =
      .ok (assignmentText settings pass.environment target.text appends
        (if expands then (Noted.each (Fragment.freeze pass.environment node.line) found).value
          else found))
        { pass with
          environment := assigned settings pass.environment target.text appends
            (if expands then (Noted.each (Fragment.freeze pass.environment node.line) found).value
              else found)
          notes } := by
  have start (next : List Fragment → Render Text) :
      (fragments value >>= next) pass = next found { pass with notes } :=
    bind_ok written
  unfold assignment
  rw [aimed, valued]
  cases appends with
  | false => cases expands <;> exact ⟨_, start _⟩
  | true =>
    cases expands with
    | false =>
      obtain ⟨added, run⟩ := append_ok settings target.text found { pass with notes }
      exact ⟨added, (start _).trans run⟩
    | true =>
      obtain ⟨added, run⟩ := append_ok settings target.text
        (Noted.each (Fragment.freeze pass.environment node.line) found).value
        { pass with notes := _ }
      exact ⟨added, (start _).trans run⟩

/-- The text and the environment that a statement comes to. Where a reference is kept, the statement
does not expand its value, and the reference is one that was left. -/
inductive Effect (settings : Settings) (environment : Environment) (node : Node) :
    Text → Environment → Prop where
  | comment {text : Text} (silent : node.writes = []) (oneLine : '\n' ∉ text) :
      Effect settings environment node (Render.comment text) environment
  | undef {name : Text} (written : node.writes = [name]) :
      Effect settings environment node (Zig.set name (Zig.literal [])) (environment.undefine name)
  | assignment {name : Text} {appends : Bool} {kept : List Fragment} (written : node.writes = [name])
      (named : Fragment.Named kept)
      (unsettled : ∀ inner mode, .reference inner mode ∈ kept →
        (∃ appends, node.kind = .assignment appends false) ∧
          .reference inner mode ∈ left environment node) :
      Effect settings environment node (assignmentText settings environment name appends kept)
        (assigned settings environment name appends kept)

theorem bind_error {α β : Type} {action : Render α} {next : α → Render β} {pass middle : Pass}
    {fault : Fault} (run : action pass = .error fault middle) :
    (action >>= next) pass = .error fault middle := by
  simp only [bind, EStateM.bind, run]

theorem left_of_fragments {environment : Environment} {value : Node} {found : List Fragment}
    {after : Pass} (valued : node.namedChild? 1 = some value)
    (run : fragments value { environment } = .ok found after) : left environment node = found := by
  unfold left
  rw [valued]
  simp only [run]

theorem effect_of_assignment {settings : Settings} {appends expands : Bool} {target value : Node}
    (aimed : node.find? .identifier = some target) (valued : node.namedChild? 1 = some value)
    (kind : node.kind = .assignment appends expands) (shape : Shape (.phrase .value) value) :
    (∃ fault, ∀ pass, assignment settings node appends expands pass = .error fault pass) ∨
      ∃ emit : Environment → Text × Environment,
        (∀ environment, Effect settings environment node (emit environment).1
          (emit environment).2) ∧
        ∀ pass, ∃ notes, assignment settings node appends expands pass =
          .ok (emit pass.environment).1
            { pass with environment := (emit pass.environment).2, notes } := by
  rcases fragments_value shape with ⟨found, named, runs⟩ | ⟨fault, fails⟩
  · let kept (environment : Environment) : List Fragment :=
      if expands then (Noted.each (Fragment.freeze environment node.line) (found environment)).value
      else found environment
    refine .inr ⟨fun environment => (assignmentText settings environment target.text appends
      (kept environment), assigned settings environment target.text appends (kept environment)),
      fun environment => ?_, fun pass => ?_⟩
    · have written : node.writes = [target.text] := by
        simp [Node.writes, kind, aimed]
      -- Freezing leaves no reference, so where one is kept the statement does not expand.
      have holds : ∀ inner mode, .reference inner mode ∈ kept environment →
          expands = false ∧ .reference inner mode ∈ found environment := by
        intro inner mode member
        cases expands with
        | true => exact absurd member Fragment.reference_not_mem_freeze
        | false => exact ⟨rfl, member⟩
      obtain ⟨notes, run⟩ := runs { environment }
      refine .assignment written ?_ ?_
      · intro inner mode member
        exact named environment inner mode (holds inner mode member).2
      · intro inner mode member
        obtain ⟨rfl, inside⟩ := holds inner mode member
        rw [left_of_fragments valued run]
        exact ⟨⟨appends, kind⟩, inside⟩
    · obtain ⟨notes, run⟩ := runs pass
      exact assignment_ok aimed valued run
  · refine .inl ⟨fault, fun pass => ?_⟩
    unfold assignment
    rw [aimed, valued]
    have named : require node "variable name" (some target) pass = .ok target pass := rfl
    rw [bind_ok named]
    exact bind_error (fails pass)

/-- A straight statement fails whatever the pass, or its text and the next environment follow from
the environment. -/
theorem effect_of_straight (shape : Shape .statement node) (straight : node.isStraight = true) :
    (∃ fault, ∀ pass, (node.plan context follow).text pass = .error fault pass) ∨
      ∃ emit : Environment → Text × Environment,
        (∀ environment, Effect context.settings environment node (emit environment).1
          (emit environment).2) ∧
        ∀ pass, ∃ notes, (node.plan context follow).text pass =
          .ok (emit pass.environment).1
            { pass with environment := (emit pass.environment).2, notes } := by
  rw [Node.plan_text]
  cases shape with
  | comment oneLine =>
    exact .inr ⟨fun environment => (_, environment), fun _ => .comment rfl oneLine, fun _ => ⟨_, rfl⟩⟩
  | undef dropped =>
    cases dropped
    exact .inr ⟨fun environment => (_, environment.undefine _), fun _ => .undef rfl,
      fun _ => ⟨_, rfl⟩⟩
  | @assignment appends expands line text operator target value assigned valued =>
    exact effect_of_assignment (assignment_target assigned _) (assignment_value assigned valued) rfl
      valued
  | located kinds => rcases kinds with rfl | rfl <;> simp [Node.isStraight, Node.branch] at straight
  | error | diagnostic | rule | conditional =>
    simp [Node.isStraight, Node.branch, Node.leaf] at straight

/-- A statement binds what it writes and forgets no name. -/
theorem Effect.bound {settings : Settings} {environment after : Environment} {text : Text}
    (effect : Effect settings environment node text after) :
    node.writes ⊆ after.bound ∧ environment.bound ⊆ after.bound := by
  have grows (name : Text) : [name] ⊆ Text.insertSorted name environment.bound ∧
      environment.bound ⊆ Text.insertSorted name environment.bound := by
    constructor
    · intro other member
      exact Text.mem_insertSorted.2 (.inl (List.mem_singleton.1 member))
    · intro other member
      exact Text.mem_insertSorted.2 (.inr member)
  cases effect with
  | comment silent => rw [silent]; simp
  | undef written => rw [written]; exact grows _
  | @assignment name appends kept written =>
    rw [written]
    cases appends <;> exact grows name

/-- The lines of a statement and of those behind it. -/
theorem texts_cons {rest : List Part} {pass after : Pass} {lines : List Text}
    (shape : Shape .statement node) (straight : node.isStraight = true)
    (rendered : texts (node.plan context follow :: rest) pass = .ok lines after) :
    ∃ text more middle, lines = text :: more ∧ texts rest middle = .ok more after ∧
      Effect context.settings pass.environment node text middle.environment ∧
      ∃ notes, (node.plan context follow).text { environment := pass.environment } =
        .ok text { environment := middle.environment, notes } := by
  rw [texts] at rendered
  rcases effect_of_straight shape straight with ⟨fault, fails⟩ | ⟨emit, effects, runs⟩
  · rw [bind_error (fails pass)] at rendered
    cases rendered
  · obtain ⟨notes, run⟩ := runs pass
    rw [bind_ok run] at rendered
    cases others : texts rest { pass with environment := (emit pass.environment).2, notes } with
    | error fault last =>
      rw [bind_error others] at rendered
      cases rendered
    | ok more last =>
      rw [bind_ok others] at rendered
      cases rendered
      exact ⟨_, more, _, rfl, others, effects pass.environment, runs { environment := pass.environment }⟩

end Render

end BmakeZig
