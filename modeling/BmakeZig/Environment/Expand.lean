import BmakeZig.Environment.Basic
import BmakeZig.Note
import BmakeZig.Value.Fragment

/-! Full expansion of a variable. `active` holds the names whose values are being expanded around
the current reference: a reference to one of them adds nothing, and neither does one to a name that
is not live. Every step down makes one more live name active, so as many steps as there are live
names are always enough. -/
namespace BmakeZig

/-- Takes trailing slashes off the value of a reference that asks for it. -/
def Mode.strip : Mode → Text → Text
  | .stripping, text => Text.dropEndSlashes text
  | _, text => text

/-- The expansion of a fragment, given that of every name. -/
def Fragment.expandWith (lookup : Text → Noted Text) : Fragment → Noted Text
  | .literal text => ⟨text, []⟩
  | .reference name mode => (lookup name).map mode.strip

namespace Environment

def expandWithin (environment : Environment) : Nat → List Text → Text → Noted Text
  | steps, active, name =>
    if name ∈ active then ⟨[], [.selfReference name]⟩
    else
      match environment.get? name with
      | none => ⟨[], [.unboundReference name]⟩
      | some value =>
        match steps with
        -- Not reached from `expand?`: there are no more active names than live ones.
        | 0 => ⟨[], []⟩
        | steps + 1 =>
          (Noted.each (Fragment.expandWith (environment.expandWithin steps (name :: active)))
            (Fragment.split value)).map List.flatten

/-- The full expansion of a live name. -/
def expand? (environment : Environment) (name : Text) : Option (Noted Text) :=
  if environment.contains name then some (environment.expandWithin environment.size [] name)
  else none

end Environment

end BmakeZig
