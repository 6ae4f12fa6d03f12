import BmakeZig.Proofs.Text.Lines
import BmakeZig.Render.Inclusion

/-! Paths in normal form. A normal path goes up first and down afterwards, so normalising it again
changes nothing; and a path whose steps are components of a text is read back from its own text, so
different paths have different texts. -/
namespace BmakeZig

namespace Path

variable {path folder other : Path}

/-! Where steps and paths come from. -/

theorem mem_of_mem_fold {taken : List Step} {step other : Step} (member : other ∈ fold taken step) :
    other = step ∨ other ∈ taken := by
  unfold fold at member
  split at member
  · exact .inr (List.mem_cons_of_mem _ member)
  · exact List.mem_cons.1 member

theorem mem_of_mem_foldl {steps taken : List Step} {other : Step}
    (member : other ∈ steps.foldl fold taken) : other ∈ steps ∨ other ∈ taken := by
  induction steps generalizing taken with
  | nil => exact .inr member
  | cons step steps ih =>
    rcases ih member with later | before
    · exact .inl (List.mem_cons_of_mem _ later)
    · rcases mem_of_mem_fold before with rfl | old
      · exact .inl List.mem_cons_self
      · exact .inr old

theorem mem_of_mem_normalize {step : Step} (member : step ∈ path.normalize.steps) :
    step ∈ path.steps := by
  rcases mem_of_mem_foldl (List.mem_reverse.1 member) with inside | none
  · exact inside
  · cases none

theorem mem_of_mem_join {step : Step} (member : step ∈ (folder.join path).steps) :
    step ∈ folder.steps ∨ step ∈ path.steps := by
  unfold join at member
  split at member
  · exact .inr member
  · exact List.mem_append.1 member

theorem mem_of_mem_parent {step : Step} {parent : Path} (found : path.parent? = some parent)
    (member : step ∈ parent.steps) : step ∈ path.steps := by
  unfold parent? at found
  split at found
  · cases found
  · cases found
    exact List.dropLast_subset _ member

theorem mem_of_mem_distinct {paths : List Path} (member : path ∈ distinct paths) : path ∈ paths := by
  induction paths with
  | nil => cases member
  | cons first rest ih =>
    rcases List.mem_cons.1 member with rfl | later
    · exact List.mem_cons_self
    · exact List.mem_cons_of_mem _ (ih (List.mem_filter.1 later).1)

/-! Normal paths. -/

/-- Steps, the last one taken first, with no name below a step up. -/
def Tidy : List Step → Prop
  | [] => True
  | step :: rest => (step = .up → ∀ below ∈ rest.head?, below = .up) ∧ Tidy rest

theorem tidy_fold {taken : List Step} (tidy : Tidy taken) (step : Step) : Tidy (fold taken step) := by
  cases step with
  | name text =>
    cases taken with
    | nil => exact ⟨by simp, tidy⟩
    | cons last rest => cases last <;> exact ⟨by simp, tidy⟩
  | up =>
    cases taken with
    | nil => exact ⟨by simp, tidy⟩
    | cons last rest =>
      cases last with
      | up => exact ⟨by simp, tidy⟩
      | name text => exact tidy.2

theorem tidy_foldl {steps taken : List Step} (tidy : Tidy taken) : Tidy (steps.foldl fold taken) := by
  induction steps generalizing taken with
  | nil => exact tidy
  | cons step steps ih => exact ih (tidy_fold tidy step)

/-- Taking tidy steps once more leads to the same steps. -/
theorem foldl_reverse_of_tidy {taken : List Step} (tidy : Tidy taken) :
    taken.reverse.foldl fold [] = taken := by
  induction taken with
  | nil => rfl
  | cons step rest ih =>
    rw [List.reverse_cons, List.foldl_append, ih tidy.2]
    cases step with
    | name text => cases rest with
      | nil => rfl
      | cons last rest => cases last <;> rfl
    | up => cases rest with
      | nil => rfl
      | cons last rest =>
        obtain rfl := tidy.1 rfl last rfl
        rfl

theorem normalize_normalize (path : Path) : path.normalize.normalize = path.normalize := by
  have again := foldl_reverse_of_tidy (@tidy_foldl path.steps [] trivial)
  simp only [normalize, again]

/-! Paths as texts. -/

/-- A name that a component of a text can be. -/
def Step.Proper : Step → Prop
  | .up => True
  | .name text => text ≠ [] ∧ text ≠ ['.'] ∧ text ≠ ['.', '.'] ∧ '/' ∉ text

def Proper (path : Path) : Prop :=
  ∀ step ∈ path.steps, step.Proper

theorem proper_ofText (text : Text) : (ofText text).Proper := by
  intro step member
  obtain ⟨component, inside, found⟩ := List.mem_filterMap.1 member
  unfold Step.ofComponent? at found
  split at found
  · cases found
  · next real =>
    simp only [Bool.or_eq_true, decide_eq_true_eq, not_or] at real
    split at found
    · cases found
      trivial
    · next other =>
      cases found
      exact ⟨real.1, real.2, other, Text.not_mem_of_mem_splitOn inside⟩

theorem Proper.normalize (proper : path.Proper) : path.normalize.Proper :=
  fun step member => proper step (mem_of_mem_normalize member)

theorem Step.Proper.slash_not_mem {step : Step} (proper : step.Proper) : '/' ∉ step.toText := by
  cases step with
  | up => decide
  | name text => exact proper.2.2.2

theorem Step.Proper.ofComponent? {step : Step} (proper : step.Proper) :
    Step.ofComponent? step.toText = some step := by
  cases step with
  | up => rfl
  | name text =>
    obtain ⟨filled, dot, dots, _⟩ := proper
    simp [Step.ofComponent?, Step.toText, filled, dot, dots]

/-- The steps are read back from their texts joined by slashes. -/
theorem filterMap_splitOn {steps : List Step} (proper : ∀ step ∈ steps, step.Proper) :
    (Text.splitOn '/' (Text.joinWith ['/'] (steps.map Step.toText))).filterMap Step.ofComponent? =
      steps := by
  induction steps with
  | nil => rfl
  | cons step rest ih =>
    have first := proper step List.mem_cons_self
    have later := ih fun other member => proper other (List.mem_cons_of_mem _ member)
    cases rest with
    | nil =>
      rw [List.map_cons, List.map_nil, Text.joinWith, Text.splitOn_of_not_mem first.slash_not_mem]
      simp [first.ofComponent?]
    | cons next rest =>
      have joined : Text.joinWith ['/'] ((step :: next :: rest).map Step.toText) =
          step.toText ++ '/' :: Text.joinWith ['/'] ((next :: rest).map Step.toText) := by
        simp [Text.joinWith]
      rw [joined, Text.splitOn_append, Text.splitOn_of_not_mem first.slash_not_mem,
        List.filterMap_append, later]
      simp [first.ofComponent?]

/-- The text of a relative path starts with no slash. -/
theorem head?_joinWith {steps : List Step} (proper : ∀ step ∈ steps, step.Proper) :
    (Text.joinWith ['/'] (steps.map Step.toText)).head? ≠ some '/' := by
  cases steps with
  | nil => simp [Text.joinWith]
  | cons step rest =>
    have first := proper step List.mem_cons_self
    have filled : step.toText ≠ [] := by
      cases step with
      | up => decide
      | name text => exact first.1
    have front : ∃ more, Text.joinWith ['/'] ((step :: rest).map Step.toText) =
        step.toText ++ more := by
      cases rest with
      | nil => exact ⟨[], by simp [Text.joinWith]⟩
      | cons other rest =>
        refine ⟨'/' :: Text.joinWith ['/'] ((other :: rest).map Step.toText), ?_⟩
        simp [Text.joinWith]
    obtain ⟨more, same⟩ := front
    rw [same]
    cases spelled : step.toText with
    | nil => exact absurd spelled filled
    | cons c text =>
      have absent := first.slash_not_mem
      rw [spelled] at absent
      simp only [List.cons_append, List.head?_cons, ne_eq, Option.some.injEq]
      rintro rfl
      exact absent List.mem_cons_self

theorem ofText_toText (proper : path.Proper) : ofText path.toText = path := by
  obtain ⟨absolute, steps⟩ := path
  have read := filterMap_splitOn proper
  cases absolute with
  | true => simpa [ofText, toText, Text.splitOn, Step.ofComponent?] using read
  | false =>
    have start := head?_joinWith proper
    simpa [ofText, toText, start] using read

theorem toText_injective (proper : path.Proper) (others : other.Proper)
    (same : path.toText = other.toText) : path = other := by
  rw [← ofText_toText proper, same, ofText_toText others]

end Path

theorem mem_of_locate {load : Loader} {places : List Path} {place : Path} {source : Text}
    (found : (locate load places).found = some (place, source)) : place ∈ places := by
  induction places with
  | nil => cases found
  | cons first rest ih =>
    unfold locate at found
    split at found
    · cases found
      exact List.mem_cons_self
    · exact List.mem_cons_of_mem _ (ih found)

namespace Context

variable {context : Context} {searchDirs : List Path} {requested place : Path}

/-- The paths that a place to look at may start from. -/
def bases (context : Context) (searchDirs : List Path) : List Path :=
  context.root.toList ++ context.stack ++ searchDirs ++ context.settings.includeDirs.map Path.ofText

theorem mem_bases_of_folder {folder : Path} {step : Path.Step} (found : context.folder? = some folder)
    (member : step ∈ folder.steps) : ∃ base ∈ context.bases searchDirs, step ∈ base.steps := by
  obtain ⟨unit, opened, parent⟩ := Option.bind_eq_some_iff.1 found
  have listed : unit ∈ context.root.toList ++ context.stack := by
    cases innermost : context.stack.head? with
    | none =>
      rw [innermost] at opened
      exact List.mem_append_left _ (Option.mem_toList.2 opened)
    | some inner =>
      rw [innermost] at opened
      cases opened
      exact List.mem_append_right _ (List.mem_of_head? innermost)
  refine ⟨unit, ?_, Path.mem_of_mem_parent parent member⟩
  exact List.mem_append_left _ (List.mem_append_left _ listed)

/-- A place to look at is normal, and its steps are those asked for and those of a base. -/
theorem normal_places (member : place ∈ context.places searchDirs requested) :
    place.normalize = place ∧ ∀ step ∈ place.steps,
      step ∈ requested.steps ∨ ∃ base ∈ context.bases searchDirs, step ∈ base.steps := by
  unfold places at member
  split at member
  · rw [List.mem_singleton.1 member]
    exact ⟨Path.normalize_normalize _, fun step inside => .inl (Path.mem_of_mem_normalize inside)⟩
  · rcases List.mem_append.1 member with inside | last
    · obtain ⟨base, listed, rfl⟩ := List.mem_map.1 inside
      refine ⟨Path.normalize_normalize _, fun step held => ?_⟩
      rcases Path.mem_of_mem_join (Path.mem_of_mem_normalize held) with before | own
      · refine .inr ?_
        rcases List.mem_append.1 listed with looked | configured
        · rcases List.mem_append.1 looked with near | found
          · exact mem_bases_of_folder (Option.mem_toList.1 near) before
          · exact ⟨base, by simp [bases, found], before⟩
        · exact ⟨base, List.mem_append_right _ configured, before⟩
      · exact .inl own
    · rw [List.mem_singleton.1 last]
      exact ⟨Path.normalize_normalize _, fun step held => .inl (Path.mem_of_mem_normalize held)⟩

theorem proper_places (member : place ∈ context.places searchDirs requested)
    (proper : ∀ base ∈ context.bases searchDirs, base.Proper) (own : requested.Proper) :
    place.Proper := by
  intro step held
  rcases (normal_places member).2 step held with asked | ⟨base, listed, inside⟩
  · exact own step asked
  · exact proper base listed step inside

end Context

end BmakeZig
