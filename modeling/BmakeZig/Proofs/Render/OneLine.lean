import BmakeZig.Proofs.Environment.Basic
import BmakeZig.Proofs.Path
import BmakeZig.Proofs.Render.Phrase
import BmakeZig.Proofs.Render.Straight
import BmakeZig.Render.Statement

/-! Texts of one line. Where no stored value and no place of a pass holds a line break, nothing that
the pass cuts out of values, puts into their place, expands or looks up holds one, and it stores no
such value and no such place. -/
namespace BmakeZig

/-! Values. -/

theorem Mode.newline_not_mem_strip {text : Text} (mode : Mode) (oneLine : '\n' ∉ text) :
    '\n' ∉ mode.strip text := by
  cases mode with
  | recursive | immediate => exact oneLine
  | stripping => exact fun member => oneLine ((Text.dropEndWhile_isPrefix _ text).subset member)

/-- No stored value holds a line break. -/
def Environment.OneLine (environment : Environment) : Prop :=
  ∀ name value, environment.get? name = some value → '\n' ∉ value

/-- No value of the process holds a line break. -/
def ProcessEnvironment.OneLine (process : ProcessEnvironment) : Prop :=
  ∀ name value, process.get? name = some value → '\n' ∉ value

namespace Fragment

variable {environment : Environment} {process : ProcessEnvironment} {fragment : Fragment}
  {fragments : List Fragment} {text name : Text} {mode : Mode} {line : Nat}

def OneLine (fragment : Fragment) : Prop :=
  '\n' ∉ fragment.written

@[simp] theorem oneLine_literal : OneLine (literal text) ↔ '\n' ∉ text := by
  simp only [OneLine, written, List.mem_flatMap, not_exists, not_and]
  constructor
  · intro none member
    exact none '\n' member (by simp)
  · intro none c member inside
    split at inside
    · simp at inside
    · rw [← List.mem_singleton.1 inside] at member
      exact none member

theorem oneLine_reference (mode : Mode) (named : Text.isName name = true) :
    OneLine (reference name mode) := by
  have absent : '\n' ∉ name := by
    intro member
    exact absurd (Text.isNameChar_of_mem named member) (by decide)
  cases mode <;> simpa [OneLine, written, Mode.opening, Mode.closing] using absent

theorem newline_not_mem_toText (each : ∀ fragment ∈ fragments, fragment.OneLine) :
    '\n' ∉ toText fragments := by
  intro member
  obtain ⟨fragment, inside, found⟩ := List.mem_flatMap.1 member
  exact each fragment inside found

theorem oneLine_consLiteral {c : Char} (other : c ≠ '\n')
    (each : ∀ fragment ∈ fragments, fragment.OneLine) :
    ∀ fragment ∈ consLiteral c fragments, fragment.OneLine := by
  unfold consLiteral
  split
  · rw [List.forall_mem_cons, oneLine_literal] at each ⊢
    exact ⟨by simp [each.1, Ne.symm other], each.2⟩
  · rw [List.forall_mem_cons, oneLine_literal]
    exact ⟨by simp [Ne.symm other], each⟩

theorem oneLine_split (oneLine : '\n' ∉ text) : ∀ fragment ∈ split text, fragment.OneLine := by
  fun_induction split text with
  | case1 => simp
  | case2 rest ih => exact oneLine_consLiteral (by decide) (ih (by simp_all))
  | case3 after _ name mode rest spelled _ ih =>
    obtain ⟨spelling, whole, _⟩ := reference?_spelling spelled
    have below : '\n' ∉ rest := fun member => oneLine (by simp [whole, member])
    rw [List.forall_mem_cons]
    exact ⟨oneLine_reference mode (isName_of_reference? spelled), ih below⟩
  | case4 after _ _ ih => exact oneLine_consLiteral (by decide) (ih (by simp_all))
  | case5 c rest _ _ ih =>
    rw [List.mem_cons, not_or] at oneLine
    exact oneLine_consLiteral (Ne.symm oneLine.1) (ih oneLine.2)

end Fragment

namespace Environment

variable {environment : Environment}

theorem OneLine.assign (oneLine : environment.OneLine) (name : Text) {value : Text}
    (single : '\n' ∉ value) : (environment.assign name value).OneLine := by
  intro other stored found
  rw [get?_assign] at found
  split at found
  · cases found
    exact single
  · exact oneLine other stored found

theorem OneLine.append (oneLine : environment.OneLine) (name : Text) {value separator : Text}
    (single : '\n' ∉ value) (between : '\n' ∉ separator) :
    (environment.append name value separator).OneLine := by
  have old : '\n' ∉ (environment.get? name).getD [] := by
    cases found : environment.get? name with
    | none => exact List.not_mem_nil
    | some stored => exact oneLine name stored found
  refine oneLine.assign name ?_
  unfold appended
  split <;> simp [old, single, between]

theorem OneLine.undefine (oneLine : environment.OneLine) (name : Text) :
    (environment.undefine name).OneLine := by
  intro other stored found
  rw [get?_undefine] at found
  split at found
  · cases found
  · exact oneLine other stored found

/-- Induction on the steps that are left, as expansion goes down them. -/
theorem OneLine.expandWithin (oneLine : environment.OneLine) (steps : Nat) (active : List Text)
    (name : Text) : '\n' ∉ (environment.expandWithin steps active name).value := by
  induction steps generalizing active name with
  | zero =>
    unfold Environment.expandWithin
    split
    · exact List.not_mem_nil
    · split <;> exact List.not_mem_nil
  | succ steps ih =>
    unfold Environment.expandWithin
    split
    · exact List.not_mem_nil
    · split
      · exact List.not_mem_nil
      · next value found =>
        intro member
        simp only [Noted.map, Noted.each, List.map_map, List.mem_flatten, List.mem_map] at member
        obtain ⟨_, ⟨fragment, inside, rfl⟩, member⟩ := member
        have single := Fragment.oneLine_split (oneLine name value found) fragment inside
        cases fragment with
        | literal text => exact Fragment.oneLine_literal.1 single member
        | reference inner mode => exact mode.newline_not_mem_strip (ih _ inner) member

theorem OneLine.expand? (oneLine : environment.OneLine) {name : Text} {expanded : Noted Text}
    (found : environment.expand? name = some expanded) : '\n' ∉ expanded.value := by
  unfold Environment.expand? at found
  split at found
  · cases found
    exact oneLine.expandWithin _ _ _
  · cases found

end Environment

namespace Fragment

variable {environment : Environment} {process : ProcessEnvironment} {fragment : Fragment}
  {fragments : List Fragment}

theorem oneLine_settle (oneLine : environment.OneLine) (single : fragment.OneLine) :
    (settle environment fragment).value.OneLine := by
  unfold settle
  split
  · split
    · next found => exact oneLine_literal.2 (oneLine.expand? found)
    · exact oneLine_literal.2 List.not_mem_nil
  · exact single

theorem oneLine_substitute (oneLine : environment.OneLine) (line : Nat) (single : fragment.OneLine) :
    ∀ other ∈ (substitute environment line fragment).value, other.OneLine := by
  unfold substitute
  split
  · split
    · next value found =>
      intro other member
      simp only [Noted.each, List.map_map, List.mem_map] at member
      obtain ⟨original, inside, rfl⟩ := member
      exact oneLine_settle oneLine (oneLine_split (oneLine _ value found) original inside)
    · intro other member
      cases member
  · intro other member
    rw [List.mem_singleton.1 member]
    exact single

theorem oneLine_substituteAll (oneLine : environment.OneLine) (line : Nat)
    (each : ∀ fragment ∈ fragments, fragment.OneLine) :
    ∀ other ∈ (substituteAll environment line fragments).value, other.OneLine := by
  intro other member
  rw [substituteAll_value, List.mem_flatMap] at member
  obtain ⟨fragment, inside, found⟩ := member
  exact oneLine_substitute oneLine line (each fragment inside) other found

theorem oneLine_freeze (oneLine : environment.OneLine) (line : Nat) (single : fragment.OneLine) :
    (freeze environment line fragment).value.OneLine := by
  unfold freeze
  split
  · next name mode =>
    split
    · next found => exact oneLine_literal.2 (mode.newline_not_mem_strip (oneLine.expand? found))
    · exact oneLine_literal.2 List.not_mem_nil
  · exact single

theorem newline_not_mem_static (oneLine : environment.OneLine) (ambient : process.OneLine)
    (single : fragment.OneLine) : '\n' ∉ (static environment process fragment).value := by
  unfold static
  split
  · exact oneLine_literal.1 single
  · next name mode =>
    split
    · next found => exact mode.newline_not_mem_strip (oneLine.expand? found)
    · split
      · next value found => exact mode.newline_not_mem_strip (ambient name value found)
      · exact List.not_mem_nil

theorem newline_not_mem_staticText (oneLine : environment.OneLine) (ambient : process.OneLine)
    (each : ∀ fragment ∈ fragments, fragment.OneLine) :
    '\n' ∉ (staticText environment process fragments).value := by
  intro member
  simp only [staticText, Noted.map, Noted.each, List.map_map, List.mem_flatten, List.mem_map] at member
  obtain ⟨_, ⟨fragment, inside, rfl⟩, member⟩ := member
  exact newline_not_mem_static oneLine ambient (each fragment inside) member

end Fragment

/-! Places. -/

namespace Path

variable {path : Path}

def OneLine (path : Path) : Prop :=
  ∀ step ∈ path.steps, '\n' ∉ step.toText

theorem oneLine_ofText {text : Text} (single : '\n' ∉ text) : (ofText text).OneLine := by
  intro step member
  obtain ⟨component, inside, found⟩ := List.mem_filterMap.1 member
  unfold Step.ofComponent? at found
  split at found
  · cases found
  · split at found
    · cases found
      decide
    · cases found
      exact fun newline => single (Text.mem_of_mem_splitOn inside newline)

theorem OneLine.toText (oneLine : path.OneLine) : '\n' ∉ path.toText := by
  have steps : '\n' ∉ Text.joinWith ['/'] (path.steps.map Step.toText) := by
    refine Text.not_mem_joinWith (by decide) fun text member => ?_
    obtain ⟨step, inside, rfl⟩ := List.mem_map.1 member
    exact oneLine step inside
  unfold Path.toText
  split <;> simp [steps]

theorem OneLine.normalize (oneLine : path.OneLine) : path.normalize.OneLine :=
  fun step member => oneLine step (mem_of_mem_normalize member)

end Path

/-- None of the surroundings of a unit that may come into its text holds a line break. -/
structure Context.OneLine (context : Context) : Prop where
  root : ∀ path ∈ context.root, path.OneLine
  stack : ∀ path ∈ context.stack, path.OneLine
  directories : ∀ directory ∈ context.settings.includeDirs, '\n' ∉ directory
  separator : '\n' ∉ context.settings.appendSeparator
  process : context.process.OneLine

/-- Inside a unit at a place of one line. -/
theorem Context.OneLine.below {context : Context} (around : context.OneLine) {place : Path}
    (single : place.OneLine) : { context with stack := place :: context.stack : Context }.OneLine :=
  { around with stack := List.forall_mem_cons.2 ⟨single, around.stack⟩ }

theorem Context.OneLine.places {context : Context} (around : context.OneLine) {searchDirs : List Path}
    {requested : Path} (searched : ∀ path ∈ searchDirs, path.OneLine) (oneLine : requested.OneLine) :
    ∀ place ∈ context.places searchDirs requested, place.OneLine := by
  intro place member step held
  rcases (Context.normal_places member).2 step held with asked | ⟨base, listed, inside⟩
  · exact oneLine step asked
  have single : base.OneLine := by
    simp only [Context.bases, List.mem_append, Option.mem_toList] at listed
    rcases listed with ((outermost | opened) | found) | configured
    · exact around.root base outermost
    · exact around.stack base opened
    · exact searched base found
    · obtain ⟨directory, chosen, rfl⟩ := List.mem_map.1 configured
      exact Path.oneLine_ofText (around.directories directory chosen)
  exact single step inside

/-! Passes. -/

/-- Nothing that a pass remembers and that may come into its text holds a line break. -/
structure Pass.OneLine (pass : Pass) : Prop where
  environment : pass.environment.OneLine
  searched : ∀ path ∈ pass.searchDirs, path.OneLine

namespace Render

variable {α β : Type} {property : α → Prop} {result : β → Prop} {context : Context} {node : Node}

/-- In a pass of one-line texts, what the action gives has the property, and the pass stays one. -/
def Gives (action : Render α) (property : α → Prop) : Prop :=
  ∀ pass value after, pass.OneLine → action pass = .ok value after →
    property value ∧ after.OneLine

theorem gives_pure {value : α} (holds : property value) : Gives (pure value) property := by
  intro pass _ after before run
  cases run
  exact ⟨holds, before⟩

theorem Gives.bind {action : Render α} {next : α → Render β} (first : Gives action property)
    (second : ∀ value, property value → Gives (next value) result) :
    Gives (action >>= next) result := by
  intro pass value after before run
  obtain ⟨given, middle, ran, rest⟩ := of_bind_ok run
  obtain ⟨holds, between⟩ := first pass given middle before ran
  exact second given holds middle value after between rest

theorem gives_throw (fault : Fault) : Gives (throw fault) property := by
  intro pass value after _ run
  cases run

/-- An action that always gives the same and changes none of the texts that count. -/
theorem gives_of_quiet {action : Render α} {value : α} (holds : property value)
    (quiet : ∀ pass, ∃ after, action pass = .ok value after ∧
      after.environment = pass.environment ∧ after.searchDirs = pass.searchDirs) :
    Gives action property := by
  intro pass given after before run
  obtain ⟨other, ran, environment, searched⟩ := quiet pass
  rw [ran] at run
  cases run
  exact ⟨holds, ⟨environment ▸ before.environment, searched ▸ before.searched⟩⟩

theorem gives_note (note : Note) : Gives (Render.note note) fun _ => True :=
  gives_of_quiet trivial fun _ => ⟨_, rfl, rfl, rfl⟩

theorem gives_warn (line : Nat) (message : Text) : Gives (warn line message) fun _ => True :=
  gives_of_quiet trivial fun _ => ⟨_, rfl, rfl, rfl⟩

theorem gives_noted {noted : Noted α} (holds : property noted.value) :
    Gives (Render.noted noted) property :=
  gives_of_quiet holds fun _ => ⟨_, rfl, rfl, rfl⟩

theorem gives_environment : Gives environment Environment.OneLine := by
  intro pass value after before run
  cases run
  exact ⟨before.environment, before⟩

theorem gives_setEnvironment {environment : Environment} (oneLine : environment.OneLine) :
    Gives (setEnvironment environment) fun _ => True := by
  intro pass value after before run
  cases run
  exact ⟨trivial, ⟨oneLine, before.searched⟩⟩

theorem gives_assign (name : Text) {value : Text} (single : '\n' ∉ value) :
    Gives (assign name value) fun _ => True :=
  (gives_note _).bind fun _ _ => gives_environment.bind fun _ oneLine =>
    gives_setEnvironment (oneLine.assign name single)

theorem gives_append (name : Text) {value separator : Text} (single : '\n' ∉ value)
    (between : '\n' ∉ separator) : Gives (append name value separator) fun _ => True :=
  gives_environment.bind fun _ oneLine => (gives_note _).bind fun _ _ =>
    gives_setEnvironment (oneLine.append name single between)

theorem gives_undefine (name : Text) : Gives (undefine name) fun _ => True :=
  gives_environment.bind fun _ oneLine => gives_setEnvironment (oneLine.undefine name)

/-! The fragments and paths of a node. -/

theorem gives_fragments {written : List Fragment} (each : ∀ fragment ∈ written, fragment.OneLine)
    (settled : writtenFragments node = pure written ∨ ∃ fault, writtenFragments node = throw fault) :
    Gives (fragments node) fun found => ∀ fragment ∈ found, fragment.OneLine := by
  unfold fragments
  rcases settled with found | ⟨fault, failed⟩
  · rw [found, pure_bind]
    refine gives_environment.bind fun _ oneLine => ?_
    exact gives_noted (Fragment.oneLine_substituteAll oneLine _ each)
  · rw [failed]
    exact gives_throw fault

theorem gives_phraseFragments {kind : Kind} (shape : Shape (.phrase kind) node)
    (other : ∀ mode, kind ≠ .expansion mode) :
    Gives (fragments node) fun found => ∀ fragment ∈ found, fragment.OneLine := by
  have single : '\n' ∉ node.text := by
    cases shape with
    | phrase oneLine => exact oneLine
  refine gives_fragments (Fragment.oneLine_split single) ?_
  cases found : node.children.findSome? (·.find? .expansionMod) with
  | none =>
    rw [List.findSome?_eq_none_iff] at found
    exact .inl (writtenFragments_plain shape other found)
  | some modifier => exact .inr ⟨_, writtenFragments_modified shape other found⟩

theorem gives_staticPath (around : context.OneLine) (shape : Shape (.phrase .path) node) :
    Gives (staticPath context node) fun text => '\n' ∉ text := by
  refine (gives_phraseFragments shape (by simp)).bind fun found each => ?_
  refine gives_environment.bind fun _ oneLine => ?_
  exact gives_noted (Fragment.newline_not_mem_staticText oneLine around.process each)

theorem gives_findUnit (around : context.OneLine) {requested : Text} (single : '\n' ∉ requested) :
    Gives (findUnit context requested) fun unit => unit.1.OneLine := by
  have opened : Gives (get : Render Pass) Pass.OneLine := by
    intro pass value after before run
    cases run
    exact ⟨before, before⟩
  refine opened.bind fun pass before => ?_
  have places := around.places before.searched (Path.oneLine_ofText single)
  have noted (notes : List Note) : Gives (Render.noted ⟨(), notes⟩) fun _ => True :=
    gives_noted trivial
  refine (noted _).bind fun _ _ => ?_
  split
  · next unit found =>
    exact gives_pure (places unit.1 (Path.mem_of_mem_distinct (mem_of_locate found)))
  · exact gives_throw _

end Render

end BmakeZig
