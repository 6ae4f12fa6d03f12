import BmakeZig.Proofs.Environment.Expand
import BmakeZig.Proofs.Text.Cuts
import Mathlib.Data.List.Chain
import Mathlib.Logic.Relation

/-! Full expansion one step at a time, on two things that every level of it shares: the text that is put
out, from the end of which a reference takes its slashes off again, and the stack of the names whose
values are being expanded. Nothing here counts steps. At every moment the stack holds the ancestors of
the fragment whose turn it is, so the guard drops the references to one of these and no others; and
every reference that is not dropped comes to what full expansion says, and leaves the stack as it was. -/
namespace BmakeZig

/-- Takes slashes off the end of a text, as far as it goes beyond `start`. -/
def Text.popSlashes (start : Nat) (text : Text) : Text :=
  if start < text.length ∧ text.getLast? = some '/' then popSlashes start text.dropLast else text
termination_by text.length
decreasing_by
  rw [List.length_dropLast]
  omega

/-- What a reference does to the text put out, once its own part of it stands behind `start`. -/
def Mode.close : Mode → Nat → Text → Text
  | .stripping, start, out => Text.popSlashes start out
  | _, _, out => out

theorem Text.popSlashes_append (front text : Text) :
    popSlashes front.length (front ++ text) = front ++ dropEndSlashes text := by
  rw [dropEndSlashes, dropEndWhile_eq_rdropWhile]
  induction text using List.reverseRecOn with
  | nil =>
    rw [popSlashes, if_neg (by simp)]
    rfl
  | append_singleton text c ih =>
    rw [popSlashes]
    by_cases slash : c = '/'
    · subst slash
      rw [if_pos (by simp), ← List.append_assoc, List.dropLast_concat, ih,
        List.rdropWhile_concat_pos _ _ _ (by simp)]
    · rw [if_neg (by simp [slash]), List.rdropWhile_concat_neg _ _ _ (by simp [slash])]

theorem Mode.close_append (mode : Mode) (front text : Text) :
    mode.close front.length (front ++ text) = front ++ mode.strip text := by
  cases mode with
  | stripping => exact Text.popSlashes_append front text
  | recursive | immediate => rfl

namespace Environment

/-- A value that is being expanded: whose it is, the fragments that are still to come, and the reference
that led to it, with the length of the text put out in front of that. -/
structure Level where
  name : Text
  rest : List Fragment
  mode : Mode
  start : Nat

/-- A moment in the expansion of a name. The innermost level stands first. -/
structure Descent where
  out : Text
  active : List Text
  levels : List Level
  notes : List Note

namespace Descent

/-- The whole value of a live name is still to come. -/
def start (name value : Text) : Descent where
  out := []
  active := [name]
  levels := [⟨name, Fragment.split value, .recursive, 0⟩]
  notes := []

/-- A reference adds nothing, under a note. -/
def skip (descent : Descent) (waiting : List Level) (note : Note) : Descent :=
  { descent with levels := waiting, notes := descent.notes ++ [note] }

/-- The value a reference is to is expanded next. -/
def enter (descent : Descent) (waiting : List Level) (name value : Text) (mode : Mode) : Descent :=
  { descent with
    active := name :: descent.active
    levels := ⟨name, Fragment.split value, mode, descent.out.length⟩ :: waiting }

/-- A reference whose turn it is, the levels around it being as they are behind it. -/
def refer (environment : Environment) (descent : Descent) (waiting : List Level) (name : Text)
    (mode : Mode) : Descent :=
  if descent.active.contains name then descent.skip waiting (.selfReference name)
  else
    (environment.get? name).elim (descent.skip waiting (.unboundReference name)) fun value =>
      descent.enter waiting name value mode

section

variable {environment : Environment} {descent : Descent} {waiting : List Level} {name : Text} {mode : Mode}

theorem refer_of_mem (own : name ∈ descent.active) :
    descent.refer environment waiting name mode = descent.skip waiting (.selfReference name) :=
  if_pos (List.contains_iff_mem.2 own)

theorem refer_of_missing (fresh : name ∉ descent.active) (missing : environment.get? name = none) :
    descent.refer environment waiting name mode = descent.skip waiting (.unboundReference name) := by
  rw [refer, if_neg (mt List.contains_iff_mem.1 fresh), missing, Option.elim_none]

theorem refer_of_live {value : Text} (fresh : name ∉ descent.active)
    (found : environment.get? name = some value) :
    descent.refer environment waiting name mode = descent.enter waiting name value mode := by
  rw [refer, if_neg (mt List.contains_iff_mem.1 fresh), found, Option.elim_some]

end

/-- The next fragment of the innermost value, or the end of that value; nothing at the end of all. -/
def step (environment : Environment) (descent : Descent) : Option Descent :=
  match descent.levels with
  | [] => none
  | ⟨name, .literal text :: rest, mode, start⟩ :: outer =>
    some { descent with out := descent.out ++ text, levels := ⟨name, rest, mode, start⟩ :: outer }
  | ⟨name, .reference inner way :: rest, mode, start⟩ :: outer =>
    some (descent.refer environment (⟨name, rest, mode, start⟩ :: outer) inner way)
  | ⟨_, [], mode, start⟩ :: outer =>
    some { descent with
      out := mode.close start descent.out
      active := descent.active.tail
      levels := outer }

def Next (environment : Environment) (before after : Descent) : Prop :=
  before.step environment = some after

abbrev Reaches (environment : Environment) : Descent → Descent → Prop :=
  Relation.ReflTransGen (Next environment)

/-- The names of the values that the next fragment stands in, the innermost first. -/
def ancestors (levels : List Level) : List Text :=
  levels.map (·.name)

/-- The stack and the levels at one moment in the expansion of `root`. -/
structure Orderly (environment : Environment) (root : Text) (active : List Text) (levels : List Level) :
    Prop where
  stack : active = ancestors levels
  ancestry : environment.Ancestry active
  /-- What is still to come at each level is the end of its value. -/
  unread : ∀ level ∈ levels, ∃ value, environment.get? level.name = some value ∧
    level.rest <:+ Fragment.split value
  /-- What led to each level is the reference in front of what is still to come at the next. -/
  nested : levels.IsChain fun inner outer => ∃ value, environment.get? outer.name = some value ∧
    .reference inner.name inner.mode :: outer.rest <:+ Fragment.split value
  rooted : ∀ level ∈ levels.getLast?, level.name = root

namespace Orderly

variable {environment : Environment} {root name inner value : Text} {active : List Text}
  {levels outer : List Level} {first : Fragment} {rest : List Fragment} {mode way : Mode} {front : Nat}

theorem start (found : environment.get? root = some value) :
    Orderly environment root [root] [⟨root, Fragment.split value, .recursive, 0⟩] where
  stack := rfl
  ancestry := (Ancestry.nil environment).cons (by simp) found
  unread := by
    intro level member
    rw [List.mem_singleton.1 member]
    exact ⟨value, found, List.suffix_refl _⟩
  nested := .singleton _
  rooted := by simp

/-- One fragment of the innermost value is done with. -/
theorem advance (orderly : Orderly environment root active (⟨name, first :: rest, mode, front⟩ :: outer)) :
    Orderly environment root active (⟨name, rest, mode, front⟩ :: outer) where
  stack := orderly.stack
  ancestry := orderly.ancestry
  unread := by
    intro level member
    rcases List.mem_cons.1 member with rfl | inside
    · obtain ⟨value, found, ending⟩ := orderly.unread _ List.mem_cons_self
      exact ⟨value, found, (List.suffix_cons first rest).trans ending⟩
    · exact orderly.unread level (List.mem_cons_of_mem _ inside)
  nested := List.isChain_cons.2 (List.isChain_cons.1 orderly.nested)
  rooted := by
    have rooted := orderly.rooted
    cases outer with
    | nil => simpa using rooted
    | cons next outer => simpa using rooted

theorem enter
    (orderly : Orderly environment root active (⟨name, .reference inner way :: rest, mode, front⟩ :: outer))
    (fresh : inner ∉ active) (found : environment.get? inner = some value) (length : Nat) :
    Orderly environment root (inner :: active)
      (⟨inner, Fragment.split value, way, length⟩ :: ⟨name, rest, mode, front⟩ :: outer) where
  stack := by
    rw [orderly.stack]
    rfl
  ancestry := orderly.ancestry.cons fresh found
  unread := by
    intro level member
    rcases List.mem_cons.1 member with rfl | inside
    · exact ⟨value, found, List.suffix_refl _⟩
    · exact orderly.advance.unread level inside
  nested := by
    apply List.isChain_cons.2
    constructor
    · intro next same
      cases same
      exact orderly.unread _ List.mem_cons_self
    · exact orderly.advance.nested
  rooted := by
    rw [List.getLast?_cons_cons]
    exact orderly.advance.rooted

theorem leave {level : Level} (orderly : Orderly environment root active (level :: outer)) :
    Orderly environment root active.tail outer where
  stack := by
    rw [orderly.stack]
    rfl
  ancestry := ⟨orderly.ancestry.distinct.tail,
    fun above member => orderly.ancestry.live above (List.mem_of_mem_tail member)⟩
  unread := fun above member => orderly.unread above (List.mem_cons_of_mem _ member)
  nested := orderly.nested.tail
  rooted := by
    have rooted := orderly.rooted
    cases outer with
    | nil => simp
    | cons next outer => rwa [List.getLast?_cons_cons] at rooted

end Orderly

variable {environment : Environment} {root : Text}

theorem orderly_next {before after : Descent} (stepped : Next environment before after)
    (orderly : Orderly environment root before.active before.levels) :
    Orderly environment root after.active after.levels := by
  unfold Next step at stepped
  split at stepped
  · cases stepped
  · next levels =>
    cases stepped
    rw [levels] at orderly
    exact orderly.advance
  · next inner _ _ _ _ _ levels =>
    cases stepped
    rw [levels] at orderly
    by_cases own : inner ∈ before.active
    · rw [refer_of_mem own]
      exact orderly.advance
    · cases found : environment.get? inner with
      | none =>
        rw [refer_of_missing own found]
        exact orderly.advance
      | some value =>
        rw [refer_of_live own found]
        exact orderly.enter own found _
  · next levels =>
    cases stepped
    rw [levels] at orderly
    exact orderly.leave

theorem orderly_of_reaches {before after : Descent} (reached : Reaches environment before after)
    (orderly : Orderly environment root before.active before.levels) :
    Orderly environment root after.active after.levels := by
  induction reached with
  | refl => exact orderly
  | tail _ stepped ih => exact orderly_next stepped ih

/-! What a fragment comes to, whatever has been put out in front of it. -/

/-- More is put out, and the levels around it are as they are behind it. -/
def add (descent : Descent) (levels : List Level) (added : Noted Text) : Descent where
  out := descent.out ++ added.value
  active := descent.active
  levels := levels
  notes := descent.notes ++ added.notes

/-- The expansion of a fragment at this moment: it follows from the fragment and the stack. -/
def adds (environment : Environment) (active : List Text) : Fragment → Noted Text :=
  Fragment.expandWith (environment.expansion active)

theorem skip_eq_add (descent : Descent) (levels : List Level) (note : Note) (mode : Mode) :
    descent.skip levels note = descent.add levels (Noted.map mode.strip ⟨[], [note]⟩) := by
  rw [skip, add, Noted.map, mode.strip_nil, List.append_nil]

/-- From every moment with this stack on which it is the turn of the fragment, its expansion is put out
and the stack is as it was. -/
def Passes (environment : Environment) (active : List Text) (fragment : Fragment) : Prop :=
  ∀ (descent : Descent) (name : Text) (rest : List Fragment) (mode : Mode) (front : Nat)
    (outer : List Level), descent.active = active →
    descent.levels = ⟨name, fragment :: rest, mode, front⟩ :: outer →
    Reaches environment descent
      (descent.add (⟨name, rest, mode, front⟩ :: outer) (adds environment active fragment))

/-- From every moment with this stack at which the name is entered, its expansion is put out and the
stack is as it was. -/
def Leaves (environment : Environment) (active : List Text) (name value : Text) : Prop :=
  ∀ (descent : Descent) (waiting : List Level) (mode : Mode), descent.active = active →
    Reaches environment (descent.enter waiting name value mode)
      (descent.add waiting (adds environment active (.reference name mode)))

section

variable {active : List Text} {name value : Text} {fragment : Fragment}

theorem passes_of_leaves
    (inside : ∀ name mode value, fragment = .reference name mode → name ∉ active →
      environment.get? name = some value → Leaves environment active name value) :
    Passes environment active fragment := by
  rintro descent outermost rest mode front outer rfl levels
  cases fragment with
  | literal text =>
    apply Relation.ReflTransGen.single
    simp [Next, step, levels, adds, Fragment.expandWith, add]
  | reference name way =>
    have turn : Next environment descent
        (descent.refer environment (⟨outermost, rest, mode, front⟩ :: outer) name way) := by
      simp only [Next, step, levels]
    apply Relation.ReflTransGen.head turn
    by_cases own : name ∈ descent.active
    · rw [refer_of_mem own, adds, Fragment.expandWith, expansion_of_mem own, skip_eq_add _ _ _ way]
    · cases found : environment.get? name with
      | none =>
        rw [refer_of_missing own found, adds, Fragment.expandWith, expansion_of_missing own found,
          skip_eq_add _ _ _ way]
      | some value =>
        rw [refer_of_live own found]
        exact inside name way value rfl own found descent _ way rfl

/-- The fragments of a value in turn. -/
theorem reaches_end {fragments : List Fragment}
    (each : ∀ fragment ∈ fragments, Passes environment active fragment) (descent : Descent) (name : Text)
    (mode : Mode) (front : Nat) (outer : List Level) (stack : descent.active = active)
    (levels : descent.levels = ⟨name, fragments, mode, front⟩ :: outer) :
    Reaches environment descent (descent.add (⟨name, [], mode, front⟩ :: outer)
      ((Noted.each (adds environment active) fragments).map List.flatten)) := by
  induction fragments generalizing descent with
  | nil =>
    have same : descent.add (⟨name, [], mode, front⟩ :: outer)
        ((Noted.each (adds environment active) []).map List.flatten) = descent := by
      simp [add, Noted.each, Noted.map, ← levels]
    rw [same]
  | cons fragment rest ih =>
    obtain ⟨own, others⟩ := List.forall_mem_cons.1 each
    let behind := descent.add (⟨name, rest, mode, front⟩ :: outer) (adds environment active fragment)
    have begun : Reaches environment descent behind := own descent name rest mode front outer stack levels
    have ended := ih others behind stack rfl
    have same : behind.add (⟨name, [], mode, front⟩ :: outer)
        ((Noted.each (adds environment active) rest).map List.flatten) =
        descent.add (⟨name, [], mode, front⟩ :: outer)
          ((Noted.each (adds environment active) (fragment :: rest)).map List.flatten) := by
      simp [behind, add, Noted.each, Noted.map]
    rw [same] at ended
    exact begun.trans ended

/-- Every name entered is one more on the stack, so there are fewer that may be entered below it. -/
theorem leaves {active : List Text} {name value : Text} (ancestry : environment.Ancestry active)
    (fresh : name ∉ active) (found : environment.get? name = some value) :
    Leaves environment active name value := by
  have room := ancestry.length_lt fresh found
  have deeper : ∀ fragment ∈ Fragment.split value, Passes environment (name :: active) fragment := by
    intro fragment _
    apply passes_of_leaves
    intro inner _ held _ own live
    exact leaves (ancestry.cons fresh found) own live
  rintro descent waiting mode rfl
  let inside := descent.enter waiting name value mode
  have through : Reaches environment inside (inside.add
      (⟨name, [], mode, descent.out.length⟩ :: waiting) (environment.expansion descent.active name)) := by
    rw [expansion_of_live ancestry fresh found]
    exact reaches_end deeper inside _ _ _ _ rfl rfl
  apply through.tail
  simp [Next, step, adds, Fragment.expandWith, add, inside, enter, Mode.close_append, Noted.map]
termination_by environment.size - active.length
decreasing_by
  simp only [List.length_cons]
  omega

theorem passes (ancestry : environment.Ancestry active) (fragment : Fragment) :
    Passes environment active fragment :=
  passes_of_leaves fun _ _ _ _ fresh found => leaves ancestry fresh found

end

/-! Whole expansions. -/

/-- The end of an expansion that came to a text. -/
def finished (expanded : Noted Text) : Descent where
  out := expanded.value
  active := []
  levels := []
  notes := expanded.notes

theorem reaches_finished {value : Text} (found : environment.get? root = some value) :
    Reaches environment (start root value) (finished (environment.expansion [] root)) := by
  have ancestry := (Ancestry.nil environment).cons (by simp) found
  have through : Reaches environment (start root value)
      ((start root value).add [⟨root, [], .recursive, 0⟩] (environment.expansion [] root)) := by
    rw [expansion_of_live (.nil environment) (by simp) found]
    apply reaches_end _ (start root value) _ _ _ _ rfl rfl
    exact fun fragment _ => passes ancestry fragment
  apply through.tail
  simp [Next, step, start, add, finished, Mode.close]

theorem not_next_finished (expanded : Noted Text) (descent : Descent) :
    ¬Next environment (finished expanded) descent := by
  simp [Next, step, finished]

/-- There is one way on from every moment, so all of them lead to the same end. -/
theorem reaches_finished_of_reaches {descent : Descent} {value : Text}
    (found : environment.get? root = some value) (reached : Reaches environment (start root value) descent) :
    Reaches environment descent (finished (environment.expansion [] root)) := by
  have unique : Relator.RightUnique (Next environment) := by
    intro before one other first second
    exact Option.some.inj (first.symm.trans second)
  rcases Relation.ReflTransGen.total_of_right_unique unique reached (reaches_finished found) with on | back
  · exact on
  · rcases back.cases_head with same | ⟨_, stepped, _⟩
    · rw [same]
    · exact absurd stepped (not_next_finished _ _)

/-- What becomes of a reference whose turn it is, the levels around it being `waiting` behind it. -/
structure Turn (environment : Environment) (descent : Descent) (waiting : List Level) (name : Text)
    (mode : Mode) : Prop where
  /-- The guard drops the reference if its name is one of its ancestors, and no other reference. -/
  guarded : descent.step environment = some (descent.skip waiting (.selfReference name)) ↔
    name ∈ ancestors descent.levels
  /-- Any other live name is entered, whatever was expanded before, and all of its value is expanded
  inside that name and the ancestors of the reference; what this comes to is put out. -/
  expanded : ∀ value, environment.get? name = some value → name ∉ ancestors descent.levels →
    descent.step environment = some (descent.enter waiting name value mode) ∧
      ∃ text notes,
        (Noted.each (adds environment (name :: ancestors descent.levels)) (Fragment.split value)).map
          List.flatten = ⟨text, notes⟩ ∧
        Reaches environment (descent.enter waiting name value mode)
          (descent.add waiting ⟨mode.strip text, notes⟩)

theorem turn_of_orderly {descent : Descent} {name outermost : Text} {rest : List Fragment}
    {mode way : Mode} {front : Nat} {outer : List Level}
    (orderly : Orderly environment root descent.active descent.levels)
    (levels : descent.levels = ⟨outermost, .reference name mode :: rest, way, front⟩ :: outer) :
    Turn environment descent (⟨outermost, rest, way, front⟩ :: outer) name mode := by
  let waiting : List Level := ⟨outermost, rest, way, front⟩ :: outer
  have turn : descent.step environment = some (descent.refer environment waiting name mode) := by
    simp only [step, levels, waiting]
  constructor
  case guarded =>
    rw [turn, ← orderly.stack]
    constructor
    · intro dropped
      by_contra fresh
      cases found : environment.get? name with
      | none =>
        rw [refer_of_missing fresh found] at dropped
        simp [skip] at dropped
      | some value =>
        rw [refer_of_live fresh found] at dropped
        simp [skip, enter] at dropped
    · exact fun own => congrArg some (refer_of_mem own)
  case expanded =>
    rw [turn, ← orderly.stack]
    intro value found fresh
    have left := leaves orderly.ancestry fresh found descent waiting mode rfl
    rw [adds, Fragment.expandWith, expansion_of_live orderly.ancestry fresh found] at left
    rw [refer_of_live fresh found]
    exact ⟨rfl, _, _, rfl, left⟩

/-- Full expansion ends in every environment, and finds nothing just where the name is not live. At every
moment on the way the stack holds the ancestors of the fragment whose turn it is, all different and no
more of them than there are live names. -/
theorem expansion_ends (environment : Environment) (root : Text) :
    (environment.expand? root = none ↔ environment.contains root = false) ∧
      ∀ value, environment.get? root = some value → ∃ last : Descent,
        last.step environment = none ∧ last.active = [] ∧
        environment.expand? root = some ⟨last.out, last.notes⟩ ∧
        ∀ descent, Reaches environment (start root value) descent →
          Reaches environment descent last ∧
          Orderly environment root descent.active descent.levels ∧
          descent.active.length ≤ environment.size ∧
          ∀ outermost rest way front outer name mode,
            descent.levels = ⟨outermost, .reference name mode :: rest, way, front⟩ :: outer →
            Turn environment descent (⟨outermost, rest, way, front⟩ :: outer) name mode := by
  constructor
  · rw [expand?_eq_none_iff]
    simp [contains]
  · intro value found
    refine ⟨finished (environment.expansion [] root), rfl, rfl, expand?_of_live found, ?_⟩
    intro descent reached
    have orderly := orderly_of_reaches reached (.start found)
    refine ⟨reaches_finished_of_reaches found reached, orderly, orderly.ancestry.length_le, ?_⟩
    intro outermost rest way front outer name mode levels
    exact turn_of_orderly orderly levels

/-- Two names that refer to each other, and one that refers to itself and is used three times. -/
def tangled : Environment :=
  ((Environment.assign {} ['A'] "a$(B)$(C)".toList).assign ['B'] "b$(A)$\x7bC\x7d$(C)".toList).assign
    ['C'] "/$(C)".toList

/-- The reference to `B` is expanded, and those back to `A` and to `C` inside itself are dropped. -/
theorem tangled_ends : ∃ last descent : Descent, ∃ waiting : List Level,
    last.step tangled = none ∧ last.active = [] ∧ last.out = "ab//".toList ∧
      Reaches tangled (start ['A'] "a$(B)$(C)".toList) descent ∧ Reaches tangled descent last ∧
      descent.active = [['A']] ∧ Turn tangled descent waiting ['B'] .recursive := by
  obtain ⟨last, ended, empty, expanded, moments⟩ :=
    (expansion_ends tangled ['A']).2 "a$(B)$(C)".toList (by decide)
  have cut : Fragment.split "a$(B)$(C)".toList =
      [.literal ['a'], .reference ['B'] .recursive, .reference ['C'] .recursive] := by
    decide +kernel
  have reached : Reaches tangled (start ['A'] "a$(B)$(C)".toList)
      ⟨['a'], [['A']], [⟨['A'], [.reference ['B'] .recursive, .reference ['C'] .recursive], .recursive, 0⟩],
        []⟩ := by
    apply Relation.ReflTransGen.single
    rw [start, cut]
    rfl
  obtain ⟨onward, -, -, turns⟩ := moments _ reached
  have value : (tangled.expand? ['A']).map (·.value) = some "ab//".toList := by decide +kernel
  rw [expanded] at value
  exact ⟨last, _, _, ended, empty, Option.some.inj value, reached, onward, rfl, turns _ _ _ _ _ _ _ rfl⟩

end Descent

end Environment

end BmakeZig
