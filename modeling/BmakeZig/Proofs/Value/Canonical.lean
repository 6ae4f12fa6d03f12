import BmakeZig.Proofs.Value.Fragment
import Mathlib.Data.List.Chain

/-! The normal form of fragments. Cutting a text always ends in it, and fragments that are in it come
back from what is written of them; any other fragments come back merged. -/
namespace BmakeZig.Fragment

variable {fragments : List Fragment}

def isLiteral : Fragment → Bool
  | .literal _ => true
  | .reference .. => false

/-- Literals are not empty and do not follow one another, and references are to names. -/
structure Canonical (fragments : List Fragment) : Prop where
  filled : literal [] ∉ fragments
  apart : fragments.IsChain fun left right => ¬(left.isLiteral = true ∧ right.isLiteral = true)
  named : Named fragments

/-- Whether the fragment is no reference to something other than a name. -/
def refersToName : Fragment → Bool
  | .literal _ => true
  | .reference name _ => Text.isName name

theorem named_iff : Named fragments ↔ ∀ fragment ∈ fragments, fragment.refersToName = true := by
  constructor
  · rintro named (text | ⟨name, mode⟩) member
    · rfl
    · exact named name mode member
  · intro each name mode member
    exact each _ member

instance (fragments : List Fragment) : Decidable (Named fragments) :=
  decidable_of_iff _ named_iff.symm

theorem canonical_iff : Canonical fragments ↔ literal [] ∉ fragments ∧
    (fragments.IsChain fun left right => ¬(left.isLiteral = true ∧ right.isLiteral = true)) ∧
      Named fragments :=
  ⟨fun canonical => ⟨canonical.filled, canonical.apart, canonical.named⟩,
    fun ⟨filled, apart, named⟩ => ⟨filled, apart, named⟩⟩

instance (fragments : List Fragment) : Decidable (Canonical fragments) :=
  decidable_of_iff _ canonical_iff.symm

namespace Canonical

theorem nil : Canonical [] where
  filled := by simp
  apart := .nil
  named := fun _ _ member => absurd member (by simp)

theorem tail {first : Fragment} (canonical : Canonical (first :: fragments)) :
    Canonical fragments where
  filled := fun member => canonical.filled (List.mem_cons_of_mem _ member)
  apart := canonical.apart.tail
  named := fun name mode member => canonical.named name mode (List.mem_cons_of_mem _ member)

theorem reference {name : Text} (canonical : Canonical fragments) (named : Text.isName name = true)
    (mode : Mode) : Canonical (.reference name mode :: fragments) where
  filled := by simpa using canonical.filled
  apart := List.isChain_cons.2 ⟨by simp [isLiteral], canonical.apart⟩
  named := by
    intro other otherMode member
    rcases List.mem_cons.1 member with same | later
    · cases same
      exact named
    · exact canonical.named other otherMode later

/-- A literal in front of the list is joined to, so no two come to stand next to each other. -/
theorem consLiteral (canonical : Canonical fragments) (c : Char) :
    Canonical (consLiteral c fragments) := by
  have named : Named (Fragment.consLiteral c fragments) := fun name mode member =>
    canonical.named name mode (reference_mem_consLiteral.1 member)
  revert named
  unfold Fragment.consLiteral
  split
  · next text rest =>
    refine fun named => ⟨?_, ?_, named⟩
    · simpa using canonical.tail.filled
    · exact List.isChain_cons.2 (List.isChain_cons.1 canonical.apart)
  · next other =>
    refine fun named => ⟨?_, ?_, named⟩
    · simpa using canonical.filled
    · refine List.isChain_cons.2 ⟨?_, canonical.apart⟩
      rintro (text | ⟨name, mode⟩) first ⟨-, literal⟩
      · obtain ⟨rest, rfl⟩ := List.head?_eq_some_iff.1 first
        exact other text rest rfl
      · simp [isLiteral] at literal

theorem merge_eq (canonical : Canonical fragments) : merge fragments = fragments := by
  induction fragments with
  | nil => rfl
  | cons first fragments ih =>
    rw [merge, List.foldr_cons, ← merge, ih canonical.tail]
    -- The cases in which `cons` changes the list are those that the normal form excludes.
    unfold cons
    split
    · exact absurd List.mem_cons_self canonical.filled
    · have next := (List.isChain_cons.1 canonical.apart).1 _ rfl
      simp [isLiteral] at next
    · rfl

end Canonical

theorem canonical_split (text : Text) : Canonical (split text) := by
  fun_induction split text with
  | case1 => exact .nil
  | case2 rest ih => exact ih.consLiteral '$'
  | case3 after _ name mode rest spelled _ ih => exact ih.reference (isName_of_reference? spelled) mode
  | case4 after _ _ ih => exact ih.consLiteral '$'
  | case5 c rest _ _ ih => exact ih.consLiteral c

theorem split_toText_canonical (canonical : Canonical fragments) :
    split (toText fragments) = fragments := by
  rw [split_toText canonical.named, canonical.merge_eq]

theorem Named.append {left right : List Fragment} (first : Named left) (second : Named right) :
    Named (left ++ right) := by
  intro name mode member
  rcases List.mem_append.1 member with inside | inside
  · exact first name mode inside
  · exact second name mode inside

/-- Cutting and writing undo each other on fragments in normal form, cutting always leads there, and
two texts written one behind the other are cut up into the fragments of both, merged. -/
theorem split_toText_inverse :
    (∀ text, Canonical (split text)) ∧
      (∀ fragments, Canonical fragments → split (toText fragments) = fragments) ∧
      (∀ text, split (toText (split text)) = split text) ∧
      ∀ left right, Named left → Named right →
        split (toText left ++ toText right) = merge (left ++ right) := by
  refine ⟨canonical_split, fun _ => split_toText_canonical, fun text => ?_, ?_⟩
  · exact split_toText_canonical (canonical_split text)
  · intro left right first second
    rw [← toText_append]
    exact split_toText (first.append second)

/-- Dollar signs as data next to dollar signs that open references. -/
def dollarFragments : List Fragment :=
  [.literal "$$".toList, .reference "A".toList .stripping, .reference "_b".toList .immediate,
    .literal "$(x".toList]

/-- An empty literal, and one that joins the last one of the list in front. -/
def looseFragments : List Fragment :=
  [.literal "y)".toList, .literal [], .reference "A".toList .recursive]

theorem dollarFragments_inverse :
    Canonical dollarFragments ∧ split (toText dollarFragments) = dollarFragments ∧
      Named looseFragments ∧ split (toText dollarFragments ++ toText looseFragments) =
        dollarFragments.dropLast ++
          [.literal "$(xy)".toList, .reference "A".toList .recursive] := by
  have canonical : Canonical dollarFragments := by decide
  have loose : Named looseFragments := by decide
  have merged : merge (dollarFragments ++ looseFragments) = dollarFragments.dropLast ++
      [.literal "$(xy)".toList, .reference "A".toList .recursive] := by decide
  obtain ⟨-, back, -, joined⟩ := split_toText_inverse
  exact ⟨canonical, back _ canonical, loose, (joined _ _ canonical.named loose).trans merged⟩

end BmakeZig.Fragment
