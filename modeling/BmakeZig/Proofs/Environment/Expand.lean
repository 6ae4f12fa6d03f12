import BmakeZig.Environment.Expand
import BmakeZig.Proofs.Environment.Basic
import BmakeZig.Proofs.Value.Fragment

/-! Full expansion as a recursion over references. A name is expanded inside the values of others, its
ancestors, which are live and all different; so there are steps left wherever one is needed, and what a
reference adds follows from its name and its ancestors alone. Where every live name has the text that its
own fragments have under a table, and references only lead to names of lower rank, full expansion is
looking up the table: the guard against cycles never closes. -/
namespace BmakeZig

theorem Mode.strip_nil (mode : Mode) : mode.strip [] = [] := by
  cases mode <;> rfl

namespace Fragment

variable {values others : Text → Text} {fragments : List Fragment}

/-- The text of a fragment, given the value of every name. -/
def read (values : Text → Text) : Fragment → Text
  | .literal text => text
  | .reference name mode => mode.strip (values name)

def readAll (values : Text → Text) (fragments : List Fragment) : Text :=
  fragments.flatMap (read values)

theorem readAll_append (values : Text → Text) (left right : List Fragment) :
    readAll values (left ++ right) = readAll values left ++ readAll values right :=
  List.flatMap_append

theorem readAll_cons (values : Text → Text) (first : Fragment) (fragments : List Fragment) :
    readAll values (cons first fragments) = first.read values ++ readAll values fragments := by
  unfold cons
  split
  · rfl
  · simp [readAll, read]
  · rfl

theorem readAll_merge (values : Text → Text) (fragments : List Fragment) :
    readAll values (merge fragments) = readAll values fragments := by
  induction fragments with
  | nil => rfl
  | cons first fragments ih =>
    rw [merge, List.foldr_cons, readAll_cons, ← merge, ih]
    rfl

/-- Only the values of the names that are referred to count. -/
theorem readAll_congr
    (same : ∀ name mode, reference name mode ∈ fragments → values name = others name) :
    readAll values fragments = readAll others fragments := by
  induction fragments with
  | nil => rfl
  | cons first fragments ih =>
    have rest := ih fun name mode member => same name mode (List.mem_cons_of_mem _ member)
    have front : first.read values = first.read others := by
      cases first with
      | literal text => rfl
      | reference name mode => rw [read, read, same name mode List.mem_cons_self]
    rw [readAll, List.flatMap_cons, front, ← readAll, rest]
    rfl

/-- The expansions of fragments, put together. -/
theorem flatten_expandWith {lookup : Text → Noted Text}
    (found : ∀ name mode, reference name mode ∈ fragments → (lookup name).value = values name) :
    (Noted.each (expandWith lookup) fragments).value.flatten = readAll values fragments := by
  induction fragments with
  | nil => rfl
  | cons first fragments ih =>
    have rest := ih fun name mode member => found name mode (List.mem_cons_of_mem _ member)
    have front : (first.expandWith lookup).value = first.read values := by
      cases first with
      | literal text => rfl
      | reference name mode => rw [read, ← found name mode List.mem_cons_self]; rfl
    simp only [Noted.each, List.map_cons, List.flatten_cons, front] at rest ⊢
    rw [rest]
    rfl

end Fragment

namespace Environment

section Ancestry

variable {environment : Environment} {ancestors : List Text} {name value : Text}

/-- Names whose values can be expanded inside one another: they are live, and no two are the same. -/
structure Ancestry (environment : Environment) (ancestors : List Text) : Prop where
  distinct : ancestors.Nodup
  live : ∀ outer ∈ ancestors, environment.contains outer = true

namespace Ancestry

theorem nil (environment : Environment) : environment.Ancestry [] where
  distinct := List.nodup_nil
  live := by simp

theorem cons (ancestry : environment.Ancestry ancestors) (fresh : name ∉ ancestors)
    (found : environment.get? name = some value) : environment.Ancestry (name :: ancestors) where
  distinct := List.nodup_cons.2 ⟨fresh, ancestry.distinct⟩
  live := by
    intro outer member
    rcases List.mem_cons.1 member with rfl | inside
    · exact contains_iff.2 ⟨value, found⟩
    · exact ancestry.live outer inside

theorem length_le (ancestry : environment.Ancestry ancestors) : ancestors.length ≤ environment.size :=
  length_le_size ancestry.distinct ancestry.live

/-- A live name that is none of them leaves room for one more. -/
theorem length_lt (ancestry : environment.Ancestry ancestors) (fresh : name ∉ ancestors)
    (found : environment.get? name = some value) : ancestors.length < environment.size :=
  (ancestry.cons fresh found).length_le

end Ancestry

/-- What a reference to the name adds inside the values of its ancestors, the innermost first, with a
step for each live name that is none of them. -/
def expansion (environment : Environment) (ancestors : List Text) (name : Text) : Noted Text :=
  environment.expandWithin (environment.size - ancestors.length) ancestors name

theorem expansion_of_mem (own : name ∈ ancestors) :
    environment.expansion ancestors name = ⟨[], [.selfReference name]⟩ := by
  unfold expansion expandWithin
  rw [if_pos own]

theorem expansion_of_missing (fresh : name ∉ ancestors) (missing : environment.get? name = none) :
    environment.expansion ancestors name = ⟨[], [.unboundReference name]⟩ := by
  unfold expansion expandWithin
  rw [if_neg fresh, missing]

/-- A live name has its whole value expanded: the steps cannot have run out. -/
theorem expansion_of_live (ancestry : environment.Ancestry ancestors) (fresh : name ∉ ancestors)
    (found : environment.get? name = some value) :
    environment.expansion ancestors name =
      (Noted.each (Fragment.expandWith (environment.expansion (name :: ancestors)))
        (Fragment.split value)).map List.flatten := by
  have room := ancestry.length_lt fresh found
  obtain ⟨steps, left⟩ : ∃ steps, environment.size - ancestors.length = steps + 1 :=
    ⟨environment.size - ancestors.length - 1, by omega⟩
  have next : environment.size - (name :: ancestors).length = steps := by
    simp only [List.length_cons]
    omega
  unfold expansion
  rw [left, next, expandWithin, if_neg fresh, found]

theorem expand?_eq_none_iff : environment.expand? name = none ↔ environment.get? name = none := by
  unfold expand? contains
  cases environment.get? name <;> simp

theorem expand?_of_live (found : environment.get? name = some value) :
    environment.expand? name = some (environment.expansion [] name) := by
  rw [expand?, if_pos (contains_iff.2 ⟨value, found⟩)]
  rfl

end Ancestry

/-- Where a value refers to nothing live but to itself, only the literal text in it is left. -/
theorem expand?_of_dead {environment : Environment} {name value : Text}
    (found : environment.get? name = some value)
    (dead : ∀ inner mode, .reference inner mode ∈ Fragment.split value →
      inner = name ∨ environment.get? inner = none) :
    (environment.expand? name).map (·.value) =
      some (Fragment.readAll (fun _ => []) (Fragment.split value)) := by
  rw [expand?_of_live found, Option.map_some, expansion_of_live (.nil environment) (by simp) found]
  refine congrArg some (Fragment.flatten_expandWith fun inner mode member => ?_)
  by_cases own : inner = name
  · rw [expansion_of_mem (by simp [own])]
  · have missing := (dead inner mode member).resolve_left own
    rw [expansion_of_missing (by simp [own]) missing]

variable {environment : Environment} {values : Text → Text} {rank : Text → Nat}

/-- The table gives every live name the text its stored value has under it and every other name
nothing, and what a stored value refers to ranks lower. -/
structure Settled (environment : Environment) (values : Text → Text) (rank : Text → Nat) : Prop where
  absent : ∀ name, environment.get? name = none → values name = []
  meaning : ∀ name value, environment.get? name = some value →
    values name = Fragment.readAll values (Fragment.split value)
  falls : ∀ name value, environment.get? name = some value →
    ∀ inner mode, .reference inner mode ∈ Fragment.split value → rank inner < rank name

namespace Settled

/-- Every ancestor ranks higher than what is expanded inside it. -/
theorem expansion_value (settled : Settled environment values rank) {ancestors : List Text}
    {name : Text} (ancestry : environment.Ancestry ancestors) (lower : ∀ outer ∈ ancestors, rank name < rank outer) :
    (environment.expansion ancestors name).value = values name := by
  have fresh : name ∉ ancestors := fun member => Nat.lt_irrefl _ (lower name member)
  cases found : environment.get? name with
  | none =>
    rw [expansion_of_missing fresh found]
    exact (settled.absent name found).symm
  | some value =>
    rw [expansion_of_live ancestry fresh found, settled.meaning name value found]
    apply Fragment.flatten_expandWith
    intro inner mode member
    have below := settled.falls name value found inner mode member
    apply settled.expansion_value (ancestry.cons fresh found)
    intro outer within
    rcases List.mem_cons.1 within with rfl | inside
    · exact below
    · exact below.trans (lower outer inside)
termination_by rank name
decreasing_by exact below

/-- Full expansion looks the table up, and finds nothing for a name that is not live. -/
theorem expand?_value (settled : Settled environment values rank) (name : Text) :
    ((environment.expand? name).map (·.value)).getD [] = values name := by
  cases found : environment.get? name with
  | none =>
    rw [expand?_eq_none_iff.2 found]
    exact (settled.absent name found).symm
  | some value =>
    rw [expand?_of_live found]
    exact settled.expansion_value (.nil environment) (by simp)

end Settled

end Environment

end BmakeZig
