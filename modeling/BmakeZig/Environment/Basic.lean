import BmakeZig.Text.Basic

/-! Association lists from names to texts, in increasing order of names when they are built by
`put`. -/
namespace BmakeZig

abbrev Table := List (Text × Text)

namespace Table

def get? : Table → Text → Option Text
  | [], _ => none
  | (key, value) :: rest, name => if name = key then some value else get? rest name

def put (name value : Text) : Table → Table
  | [] => [(name, value)]
  | (key, old) :: rest =>
    if name = key then (key, value) :: rest
    else if name.precedes key then (name, value) :: (key, old) :: rest
    else (key, old) :: put name value rest

def remove (name : Text) (table : Table) : Table :=
  table.filter fun entry => entry.1 ≠ name

def ofPairs (pairs : List (Text × Text)) : Table :=
  pairs.foldl (fun table pair => put pair.1 pair.2 table) []

theorem get?_put (table : Table) (name value other : Text) :
    get? (put name value table) other = if other = name then some value else get? table other := by
  induction table with
  | nil => simp [put, get?]
  | cons entry rest ih =>
    obtain ⟨key, old⟩ := entry
    simp only [put]
    split
    · next same => subst same; simp only [get?]; split <;> simp_all
    · split
      · simp [get?]
      · simp only [get?, ih]
        by_cases found : other = key <;> by_cases same : other = name <;> simp_all

theorem get?_remove (table : Table) (name other : Text) :
    get? (remove name table) other = if other = name then none else get? table other := by
  induction table with
  | nil => simp [remove, get?]
  | cons entry rest ih =>
    obtain ⟨key, value⟩ := entry
    simp only [remove] at ih
    by_cases dropped : key = name
    · subst dropped
      simp only [remove, List.filter_cons, get?]
      split <;> simp_all
    · simp only [remove, List.filter_cons, get?, dropped, ne_eq, not_false_eq_true, decide_true,
        if_true]
      split
      · next same => subst same; simp [dropped]
      · exact ih

end Table

/-! The variables of a pass. `values` holds the stored value of every live name in written form;
`bound` remembers every name that was ever bound, so that the program can declare them all. The two
are kept apart: a name may be bound and no longer live. -/

structure Environment where
  values : Table := []
  bound : List Text := []
deriving DecidableEq, Repr

namespace Environment

def get? (environment : Environment) (name : Text) : Option Text :=
  environment.values.get? name

def contains (environment : Environment) (name : Text) : Bool :=
  (environment.get? name).isSome

def size (environment : Environment) : Nat :=
  environment.values.length

def assign (environment : Environment) (name value : Text) : Environment :=
  ⟨environment.values.put name value, Text.insertSorted name environment.bound⟩

/-- The value after `value` is appended to `old`. The separator stands between two texts only. -/
def appended (old value separator : Text) : Text :=
  if old.isEmpty || value.isEmpty then old ++ value else old ++ separator ++ value

def append (environment : Environment) (name value separator : Text) : Environment :=
  environment.assign name (appended ((environment.get? name).getD []) value separator)

def undefine (environment : Environment) (name : Text) : Environment :=
  ⟨environment.values.remove name, Text.insertSorted name environment.bound⟩

end Environment

/-! The environment of the process that compiles. It is a list of entries in which a name, an equals
sign and a value follow one another, and a name is looked up as the start of an entry. -/

abbrev ProcessEnvironment := List Text

namespace ProcessEnvironment

def ofPairs (pairs : List (Text × Text)) : ProcessEnvironment :=
  pairs.map fun pair => pair.1 ++ '=' :: pair.2

def get? (entries : ProcessEnvironment) (name : Text) : Option Text :=
  if name = [] ∨ '\x00' ∈ name then none
  else entries.findSome? (Text.after? (name ++ ['=']))

end ProcessEnvironment

end BmakeZig
