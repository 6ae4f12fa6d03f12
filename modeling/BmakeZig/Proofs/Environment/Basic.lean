import BmakeZig.Environment.Basic
import Mathlib.Data.List.Perm.Subperm

/-! Environments by what can be looked up in them. Every operation changes the value of one name,
binds it and leaves all others alone; an environment that is built by the operations has bound
every live name. -/
namespace BmakeZig

namespace Table

theorem mem_keys_of_get? {table : Table} {name value : Text} (found : table.get? name = some value) :
    name ∈ table.map Prod.fst := by
  induction table with
  | nil => simp [get?] at found
  | cons entry table ih =>
    obtain ⟨key, held⟩ := entry
    simp only [get?] at found
    split at found
    · next same => simp [same]
    · exact List.mem_cons_of_mem _ (ih found)

/-- A table with one entry for each name, whose value follows from the name. -/
theorem get?_map (names : List Text) (value : Text → Text) (name : Text) :
    get? (names.map fun key => (key, value key)) name =
      if name ∈ names then some (value name) else none := by
  induction names with
  | nil => rfl
  | cons first names ih =>
    rw [List.map_cons, get?, ih]
    by_cases same : name = first <;> simp [same]

end Table

namespace Environment

variable {environment : Environment} {name other value : Text}

theorem contains_iff :
    environment.contains name = true ↔ ∃ value, environment.get? name = some value :=
  Option.isSome_iff_exists

theorem not_contains_iff : ¬environment.contains name = true ↔ environment.get? name = none := by
  simp [contains]

theorem get?_assign (environment : Environment) (name value other : Text) :
    (environment.assign name value).get? other =
      if other = name then some value else environment.get? other :=
  Table.get?_put environment.values name value other

theorem get?_undefine (environment : Environment) (name other : Text) :
    (environment.undefine name).get? other =
      if other = name then none else environment.get? other :=
  Table.get?_remove environment.values name other

theorem contains_assign (live : environment.contains other = true) (name value : Text) :
    (environment.assign name value).contains other = true := by
  rw [contains, get?_assign]
  split
  · rfl
  · exact live

theorem contains_undefine (live : environment.contains other = true) (kept : other ≠ name) :
    (environment.undefine name).contains other = true := by
  rw [contains, get?_undefine, if_neg kept]
  exact live

/-- There are no more distinct live names than entries. -/
theorem length_le_size {names : List Text} (distinct : names.Nodup)
    (live : ∀ name ∈ names, environment.contains name = true) : names.length ≤ environment.size := by
  have inside : names ⊆ environment.values.map Prod.fst := by
    intro name member
    obtain ⟨value, found⟩ := contains_iff.1 (live name member)
    exact Table.mem_keys_of_get? found
  simpa [size] using (List.Nodup.subperm distinct inside).length_le

/-- The environments that the operations lead to. -/
inductive Built : Environment → Prop where
  | empty : Built {}
  | assign {environment : Environment} (built : Built environment) (name value : Text) :
      Built (environment.assign name value)
  | append {environment : Environment} (built : Built environment) (name value separator : Text) :
      Built (environment.append name value separator)
  | undefine {environment : Environment} (built : Built environment) (name : Text) :
      Built (environment.undefine name)

theorem mem_bound_assign_of_contains
    (bound : ∀ name, environment.contains name = true → name ∈ environment.bound)
    (live : (environment.assign name value).contains other = true) :
    other ∈ (environment.assign name value).bound := by
  apply Text.mem_insertSorted.2
  by_cases same : other = name
  · exact .inl same
  · rw [contains, get?_assign, if_neg same] at live
    exact .inr (bound other live)

theorem Built.mem_bound (built : Built environment) :
    ∀ name, environment.contains name = true → name ∈ environment.bound := by
  induction built with
  | empty => exact fun name live => absurd live (by simp [contains, get?, Table.get?])
  | assign built name value ih => exact fun other => mem_bound_assign_of_contains ih
  | append built name value separator ih => exact fun other => mem_bound_assign_of_contains ih
  | @undefine environment built name ih =>
    intro other live
    apply Text.mem_insertSorted.2
    rw [contains, get?_undefine] at live
    split at live
    · next same => exact .inl same
    · exact .inr (ih other live)

end Environment

end BmakeZig
