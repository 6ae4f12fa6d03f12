import BmakeZig.Proofs.Render.Straight
import BmakeZig.Proofs.Render.Value

/-! What the environment of a pass has to do with the store of the program it emits. The environment
keeps what was written and expands it when it is asked; the program computes a value once, when the
statement runs. The two agree as long as no stored reference leads to a variable that is still to be
written, so the invariant speaks of the writes to come. Every statement keeps it. -/
namespace BmakeZig

/-- The value of a variable of the program; nothing if the variable is not declared. -/
def Table.valueOf (table : Table) (name : Text) : Text :=
  (table.get? name).getD []

/-- The store holds what the environment foresees of the declared names, while the names in `later`
are still to be written. The rank of a name is the time of its last write. -/
structure Foresees (declared later : List Text) (environment : Environment) (store : Table)
    (rank : Text → Nat) (time : Nat) : Prop where
  known : ∀ name, environment.contains name = true → name ∈ declared
  dead : ∀ name ∈ declared, environment.get? name = none → store.get? name = some []
  stored : ∀ name value, environment.get? name = some value → ∃ fragments,
    Fragment.Named fragments ∧ value = Fragment.toText fragments ∧
      store.get? name = some (Fragment.readAll store.valueOf fragments) ∧
      ∀ inner mode, .reference inner mode ∈ fragments →
        environment.contains inner = true ∧ inner ∉ later ∧ rank inner < rank name
  past : ∀ name, rank name < time

namespace Foresees

variable {declared later remaining : List Text} {environment : Environment} {store : Table}
  {rank : Text → Nat} {time : Nat} {name : Text} {fragments : List Fragment}

theorem found_of_live (foresees : Foresees declared later environment store rank time)
    (live : environment.contains name = true) : store.get? name = some (store.valueOf name) := by
  obtain ⟨value, got⟩ := Environment.contains_iff.1 live
  obtain ⟨fragments, -, -, held, -⟩ := foresees.stored name value got
  rw [Table.valueOf, held]
  rfl

theorem found_of_declared (foresees : Foresees declared later environment store rank time)
    (inside : name ∈ declared) : store.get? name = some (store.valueOf name) := by
  cases got : environment.get? name with
  | none => rw [Table.valueOf, foresees.dead name inside got]; rfl
  | some value => exact foresees.found_of_live (Environment.contains_iff.2 ⟨value, got⟩)

/-- Only what can be looked up in the store counts. -/
theorem congr {other : Table} (foresees : Foresees declared later environment store rank time)
    (same : ∀ name, other.get? name = store.get? name) :
    Foresees declared later environment other rank time := by
  have values : other.valueOf = store.valueOf := by
    funext name
    rw [Table.valueOf, Table.valueOf, same]
  refine ⟨foresees.known, fun name inside got => ?_, fun name value got => ?_, foresees.past⟩
  · rw [same]
    exact foresees.dead name inside got
  · rw [same, values]
    exact foresees.stored name value got

theorem valueOf_put (store : Table) (name value other : Text) :
    (store.put name value).valueOf other = if other = name then value else store.valueOf other := by
  rw [Table.valueOf, Table.get?_put]
  split
  · rfl
  · rfl

/-- A write leaves the text of fragments alone that do not refer to the written name. -/
theorem readAll_put {value : Text}
    (others : ∀ inner mode, .reference inner mode ∈ fragments → inner ≠ name) :
    Fragment.readAll (store.put name value).valueOf fragments =
      Fragment.readAll store.valueOf fragments := by
  apply Fragment.readAll_congr
  intro inner mode member
  rw [valueOf_put, if_neg (others inner mode member)]

/-- What one write keeps: the fragments become the value of the name in the environment, and their
text its value in the store. -/
theorem write (foresees : Foresees declared (name :: later) environment store rank time)
    (inside : name ∈ declared) (named : Fragment.Named fragments)
    (steady : ∀ inner mode, .reference inner mode ∈ fragments →
      environment.contains inner = true ∧ inner ∉ name :: later) :
    Foresees declared later (environment.assign name (Fragment.toText fragments))
      (store.put name (Fragment.readAll store.valueOf fragments))
      (fun other => if other = name then time else rank other) (time + 1) where
  known other live := by
    by_cases same : other = name
    · rw [same]
      exact inside
    · rw [Environment.contains, Environment.get?_assign, if_neg same] at live
      exact foresees.known other live
  dead other within got := by
    rw [Environment.get?_assign] at got
    split at got
    · simp at got
    · next same =>
      rw [Table.get?_put, if_neg same]
      exact foresees.dead other within got
  stored other value got := by
    rw [Environment.get?_assign] at got
    rw [Table.get?_put]
    by_cases same : other = name
    · -- The value just written refers to names that were written before now.
      have others : ∀ inner mode, .reference inner mode ∈ fragments → inner ≠ name :=
        fun inner mode member => List.ne_of_not_mem_cons (steady inner mode member).2
      rw [if_pos same, Option.some.injEq] at got
      refine ⟨fragments, named, got.symm, by rw [if_pos same, readAll_put others], ?_⟩
      intro inner mode member
      obtain ⟨live, apart⟩ := steady inner mode member
      rw [if_pos same, if_neg (others inner mode member)]
      exact ⟨Environment.contains_assign live _ _, List.not_mem_of_not_mem_cons apart, foresees.past inner⟩
    · -- Any other value refers to names that this statement does not write.
      rw [if_neg same] at got
      obtain ⟨older, namedOlder, spelled, held, each⟩ := foresees.stored other value got
      have others : ∀ inner mode, .reference inner mode ∈ older → inner ≠ name :=
        fun inner mode member => List.ne_of_not_mem_cons (each inner mode member).2.1
      refine ⟨older, namedOlder, spelled, by rw [if_neg same, readAll_put others, held], ?_⟩
      intro inner mode member
      obtain ⟨live, apart, below⟩ := each inner mode member
      rw [if_neg same, if_neg (others inner mode member)]
      exact ⟨Environment.contains_assign live _ _, List.not_mem_of_not_mem_cons apart, below⟩
  past other := by
    split
    · omega
    · have := foresees.past other
      omega

theorem drop (foresees : Foresees declared (name :: later) environment store rank time) :
    Foresees declared later (environment.undefine name) (store.put name []) rank time where
  known other live := by
    rw [Environment.contains, Environment.get?_undefine] at live
    split at live
    · simp at live
    · exact foresees.known other live
  dead other within got := by
    rw [Table.get?_put]
    rw [Environment.get?_undefine] at got
    split at got
    · next same => rw [if_pos same]
    · next same =>
      rw [if_neg same]
      exact foresees.dead other within got
  stored other value got := by
    rw [Environment.get?_undefine] at got
    split at got
    · simp at got
    · next same =>
      obtain ⟨older, namedOlder, spelled, held, each⟩ := foresees.stored other value got
      have others : ∀ inner mode, .reference inner mode ∈ older → inner ≠ name :=
        fun inner mode member => List.ne_of_not_mem_cons (each inner mode member).2.1
      refine ⟨older, namedOlder, spelled, ?_, fun inner mode member => ?_⟩
      · rw [Table.get?_put, if_neg same, readAll_put others, held]
      · obtain ⟨live, apart, below⟩ := each inner mode member
        exact ⟨Environment.contains_undefine live (others inner mode member),
          List.not_mem_of_not_mem_cons apart, below⟩
  past := foresees.past

/-! What the environment expands a name to. -/

theorem settled (foresees : Foresees declared later environment store rank time) :
    environment.Settled
      (fun name => if environment.contains name then store.valueOf name else []) rank where
  absent name got := by
    rw [if_neg (Environment.not_contains_iff.2 got)]
  meaning name value got := by
    obtain ⟨fragments, named, rfl, held, each⟩ := foresees.stored name value got
    rw [if_pos (Environment.contains_iff.2 ⟨_, got⟩), Table.valueOf, held, Option.getD_some,
      Fragment.split_toText named, Fragment.readAll_merge]
    apply Fragment.readAll_congr
    intro inner mode member
    rw [if_pos (each inner mode member).1]
  falls name value got inner mode member := by
    obtain ⟨fragments, named, rfl, held, each⟩ := foresees.stored name value got
    rw [Fragment.split_toText named, Fragment.reference_mem_merge] at member
    exact (each inner mode member).2.2

theorem value (foresees : Foresees declared later environment store rank time)
    (inside : name ∈ declared) :
    store.get? name = some (((environment.expand? name).map (·.value)).getD []) := by
  rw [foresees.settled.expand?_value]
  split
  · next live => exact foresees.found_of_live live
  · next got => exact foresees.dead name inside (Environment.not_contains_iff.1 got)

/-! One statement. -/

variable {settings : Settings} {node : Node} {text : Text} {after : Environment}

theorem backed (foresees : Foresees declared later environment store rank time)
    (live : ∀ inner mode, .reference inner mode ∈ fragments → environment.contains inner = true) :
    Fragment.Backed environment store store.valueOf fragments :=
  fun inner mode member =>
    ⟨live inner mode member, foresees.found_of_live (live inner mode member)⟩

/-- The fragments of an appended value: the old ones, the separator and the new ones. -/
def appendedFragments (older fragments : List Fragment) (separator : Text) : List Fragment :=
  older ++ .literal (Render.between (Fragment.toText older) (Fragment.toText fragments) separator) ::
    fragments

theorem toText_appendedFragments {separator : Text} (plain : '$' ∉ separator)
    (older fragments : List Fragment) :
    Fragment.toText (appendedFragments older fragments separator) =
      Environment.appended (Fragment.toText older) (Fragment.toText fragments) separator := by
  have between : '$' ∉ Render.between (Fragment.toText older) (Fragment.toText fragments) separator := by
    unfold Render.between
    split
    · simp
    · exact plain
  rw [Render.appended_eq, appendedFragments, Fragment.toText_append, List.append_assoc]
  congr 1
  rw [Fragment.toText, List.flatMap_cons, Fragment.written_plain between]
  rfl

theorem readAll_appendedFragments (values : Text → Text) (older fragments : List Fragment)
    (separator : Text) :
    Fragment.readAll values (appendedFragments older fragments separator) =
      Fragment.readAll values older ++
        Render.between (Fragment.toText older) (Fragment.toText fragments) separator ++
        Fragment.readAll values fragments := by
  rw [appendedFragments, Fragment.readAll_append, List.append_assoc]
  rfl

theorem reference_mem_appendedFragments {older : List Fragment} {separator inner : Text} {mode : Mode}
    (member : .reference inner mode ∈ appendedFragments older fragments separator) :
    .reference inner mode ∈ older ∨ .reference inner mode ∈ fragments := by
  simpa [appendedFragments] using member

/-- An assignment, with or without an old value to append to. -/
theorem assignment {appends : Bool}
    (foresees : Foresees declared (name :: later) environment store rank time)
    (inside : name ∈ declared) (plain : '$' ∉ settings.appendSeparator)
    (named : Fragment.Named fragments)
    (steady : ∀ inner mode, .reference inner mode ∈ fragments →
      environment.contains inner = true ∧ inner ∉ name :: later) :
    ∃ store' rank' time',
      Zig.execute store (Render.assignmentText settings environment name appends fragments) =
        some store' ∧
      Foresees declared later (Render.assigned settings environment name appends fragments) store'
        rank' time' := by
  have found := foresees.found_of_declared inside
  have yields := Fragment.yields_expression
    (foresees.backed fun inner mode member => (steady inner mode member).1)
  have oneLine := Fragment.newline_not_mem_expression environment fragments
  have setting := Zig.execute_set found (yields.mono (by omega)) oneLine
  have writing := foresees.write inside named steady
  cases appends with
  | false => exact ⟨_, _, _, setting, writing⟩
  | true =>
    unfold Render.assignmentText Render.assigned Environment.append
    cases got : environment.get? name with
    | none => exact ⟨_, _, _, setting, writing⟩
    | some previous =>
      obtain ⟨older, namedOlder, rfl, held, each⟩ := foresees.stored name previous got
      have appending := Render.execute_appendStatement found yields oneLine (Fragment.toText older)
        (Fragment.toText fragments) settings.appendSeparator
      rw [Table.valueOf, held, Option.getD_some, ← readAll_appendedFragments] at appending
      have namedAll : Fragment.Named (appendedFragments older fragments settings.appendSeparator) := by
        intro inner mode member
        rcases reference_mem_appendedFragments member with old | new
        · exact namedOlder inner mode old
        · exact named inner mode new
      -- What is appended to is stored once more, so the old references have to be steady too.
      have steadyAll : ∀ inner mode,
          .reference inner mode ∈ appendedFragments older fragments settings.appendSeparator →
            environment.contains inner = true ∧ inner ∉ name :: later := by
        intro inner mode member
        rcases reference_mem_appendedFragments member with old | new
        · exact ⟨(each inner mode old).1, (each inner mode old).2.1⟩
        · exact steady inner mode new
      have extending := foresees.write inside namedAll steadyAll
      rw [toText_appendedFragments plain] at extending
      exact ⟨_, _, _, appending, extending⟩

/-- What one statement keeps. -/
theorem step (foresees : Foresees declared (node.writes ++ later) environment store rank time)
    (effect : Render.Effect settings environment node text after)
    (inside : node.writes ⊆ declared) (plain : '$' ∉ settings.appendSeparator)
    (steady : ∀ appends, node.kind = .assignment appends false →
      ∀ inner mode, .reference inner mode ∈ Render.left environment node →
        environment.contains inner = true ∧ inner ∉ node.writes ++ later) :
    ∃ store' rank' time', Zig.execute store text = some store' ∧
      Foresees declared later after store' rank' time' := by
  cases effect with
  | @comment text silent oneLine =>
    rw [silent] at foresees
    exact ⟨_, _, _, Render.execute_comment oneLine store, foresees⟩
  | @undef name written =>
    rw [written] at foresees inside
    have found := foresees.found_of_declared (inside List.mem_cons_self)
    have yields := (Zig.yields_literal store []).mono (show 1 ≤ 4 by omega)
    exact ⟨_, _, _, Zig.execute_set found yields (Zig.newline_not_mem_literal []), foresees.drop⟩
  | @assignment name appends kept written named unsettled =>
    rw [written] at foresees inside steady
    apply foresees.assignment (inside List.mem_cons_self) plain named
    intro inner mode member
    obtain ⟨⟨appends, kind⟩, left⟩ := unsettled inner mode member
    exact steady appends kind inner mode left

end Foresees

end BmakeZig
