import BmakeZig.Proofs.Environment.Expand
import Mathlib.Logic.Relation

/-! References between live names. What a name comes to depends on the values of the names it leads to,
and on which of these are being expanded around it. A name that does not lead back to itself is read as
its value is, with every name in it fully expanded by itself. -/
namespace BmakeZig

theorem Noted.each_congr {α β : Type} {f g : α → Noted β} {list : List α}
    (same : ∀ member ∈ list, f member = g member) : Noted.each f list = Noted.each g list := by
  unfold Noted.each
  rw [List.map_congr_left same]

namespace Environment

open Relation (ReflTransGen TransGen)

variable {environment other : Environment}

/-- The value stored for the outer name refers to the inner one. -/
def Refers (environment : Environment) (outer inner : Text) : Prop :=
  ∃ value mode, environment.get? outer = some value ∧ .reference inner mode ∈ Fragment.split value

/-- Where references only lead to names of lower rank, no name leads back to itself. -/
theorem not_transGen_refers_of_falls {rank : Text → Nat}
    (falls : ∀ {outer inner}, environment.Refers outer inner → rank inner < rank outer) (name : Text) :
    ¬TransGen environment.Refers name name := by
  suffices lower : ∀ last, TransGen environment.Refers name last → rank last < rank name from
    fun round => Nat.lt_irrefl _ (lower name round)
  intro last path
  induction path with
  | single refers => exact falls refers
  | tail _ refers ih => exact (falls refers).trans ih

/-- Two environments in which the name leads to the same values expand it alike, if it leads to the same
names among its ancestors. -/
theorem expansion_congr {ancestors others : List Text} {name : Text}
    (ancestry : environment.Ancestry ancestors) (otherAncestry : other.Ancestry others)
    (values : ∀ inner, ReflTransGen environment.Refers name inner →
      other.get? inner = environment.get? inner)
    (around : ∀ inner, ReflTransGen environment.Refers name inner →
      (inner ∈ others ↔ inner ∈ ancestors)) :
    other.expansion others name = environment.expansion ancestors name := by
  by_cases own : name ∈ ancestors
  · rw [expansion_of_mem own, expansion_of_mem ((around name .refl).2 own)]
  have otherOwn : name ∉ others := fun member => own ((around name .refl).1 member)
  have held := values name .refl
  cases found : environment.get? name with
  | none => rw [expansion_of_missing own found, expansion_of_missing otherOwn (held.trans found)]
  | some value =>
    rw [expansion_of_live ancestry own found, expansion_of_live otherAncestry otherOwn (held.trans found)]
    refine congrArg (Noted.map List.flatten) (Noted.each_congr ?_)
    rintro (text | ⟨inner, mode⟩) member
    · rfl
    · -- What the inner name leads to, the outer one leads to as well.
      have onward {last : Text} (path : ReflTransGen environment.Refers inner last) :
          ReflTransGen environment.Refers name last :=
        .head ⟨value, mode, found, member⟩ path
      rw [Fragment.expandWith, Fragment.expandWith]
      congr 1
      apply expansion_congr (ancestry.cons own found) (otherAncestry.cons otherOwn (held.trans found))
      · exact fun last path => values last (onward path)
      · intro last path
        rw [List.mem_cons, List.mem_cons, around last (onward path)]
termination_by environment.size - ancestors.length
decreasing_by
  have room := ancestry.length_lt own found
  simp only [List.length_cons]
  omega

variable {name value : Text}

/-- What a name expands to, and nothing for a name that is not live. -/
def valueOf (environment : Environment) (name : Text) : Text :=
  ((environment.expand? name).map (·.value)).getD []

theorem expand?_of_missing (missing : environment.get? name = none) : environment.expand? name = none :=
  expand?_eq_none_iff.2 missing

theorem valueOf_of_missing (missing : environment.get? name = none) : environment.valueOf name = [] := by
  rw [valueOf, expand?_of_missing missing]
  rfl

theorem valueOf_eq_expansion (environment : Environment) (name : Text) :
    environment.valueOf name = (environment.expansion [] name).value := by
  cases found : environment.get? name with
  | none => rw [valueOf_of_missing found, expansion_of_missing (by simp) found]
  | some value => rw [valueOf, expand?_of_live found, Option.map_some, Option.getD_some]

/-- Full expansion is reading the value, where the name itself is not met again on any way that leads
from it; names further on may lead round in circles. -/
theorem expand?_of_acyclic (found : environment.get? name = some value)
    (apart : ¬TransGen environment.Refers name name) :
    (environment.expand? name).map (·.value) =
      some (Fragment.readAll environment.valueOf (Fragment.split value)) := by
  have start := Ancestry.nil environment
  rw [expand?_of_live found, Option.map_some, expansion_of_live start (by simp) found]
  refine congrArg some (Fragment.flatten_expandWith fun inner mode member => ?_)
  rw [valueOf_eq_expansion]
  congr 1
  apply expansion_congr start (start.cons (by simp) found)
  · exact fun _ _ => rfl
  · intro last path
    have other : last ≠ name := by
      rintro rfl
      exact apart (.head' ⟨value, mode, found, member⟩ path)
    simp [other]

theorem valueOf_of_acyclic (found : environment.get? name = some value)
    (apart : ¬TransGen environment.Refers name name) :
    environment.valueOf name = Fragment.readAll environment.valueOf (Fragment.split value) := by
  rw [valueOf, expand?_of_acyclic found apart, Option.getD_some]

end Environment

end BmakeZig
