import BmakeZig.Proofs.Environment.Reference
import BmakeZig.Proofs.Render.Straight
import BmakeZig.Proofs.Value.Canonical

/-! Paths given by a variable. What a path refers to itself is looked up in the process environment where
it is not live; what a stored value refers to is not. So a text comes to the same path whether it is
written there or named through a variable exactly where the process environment has nothing to give to
the names in it. -/
namespace BmakeZig

namespace Environment

open Relation (ReflTransGen)

variable {environment : Environment} {name text first : Text} {process : ProcessEnvironment}
  {mode : Mode} {fragments : List Fragment}

/-- The text refers to the name, or to one whose value does, and so on. -/
def Leads (environment : Environment) (text name : Text) : Prop :=
  ∃ first mode, .reference first mode ∈ Fragment.split text ∧
    ReflTransGen environment.Refers first name

/-- No way leads to a name that neither the text nor a stored value refers to. -/
theorem not_leads (unread : ∀ mode, .reference name mode ∉ Fragment.split text)
    (unused : ∀ outer, ¬environment.Refers outer name) : ¬environment.Leads text name := by
  rintro ⟨first, mode, member, path⟩
  rcases path.cases_tail with rfl | ⟨outer, _, last⟩
  · exact unread mode member
  · exact unused outer last

/-- A new name comes to what its text comes to where the environment alone is asked. -/
theorem expand?_assign (fresh : environment.get? name = none) (apart : ¬environment.Leads text name) :
    ((environment.assign name text).expand? name).map (·.value) =
      some (Fragment.readAll environment.valueOf (Fragment.split text)) := by
  have found : (environment.assign name text).get? name = some text := by
    rw [get?_assign, if_pos rfl]
  have start := Ancestry.nil (environment.assign name text)
  rw [expand?_of_live found, Option.map_some, expansion_of_live start (by simp) found]
  refine congrArg some (Fragment.flatten_expandWith fun inner mode member => ?_)
  -- Nothing that the text leads to is the new name, so the name may be live there, and an ancestor.
  have other (last : Text) (path : ReflTransGen environment.Refers inner last) : last ≠ name := by
    rintro rfl
    exact apart ⟨inner, mode, member, path⟩
  rw [valueOf_eq_expansion]
  congr 1
  apply expansion_congr (.nil environment) (start.cons (by simp) found)
  · intro last path
    rw [get?_assign, if_neg (other last path)]
  · intro last path
    simp [other last path]

/-- The value of a name in a path. -/
def pathValue (environment : Environment) (process : ProcessEnvironment) (name : Text) : Text :=
  match environment.expand? name with
  | some expanded => expanded.value
  | none => (process.get? name).getD []

theorem pathValue_of_live {value : Text} (found : environment.get? name = some value)
    (process : ProcessEnvironment) : environment.pathValue process name = environment.valueOf name := by
  simp [pathValue, valueOf, expand?, contains, found]

theorem pathValue_of_missing (missing : environment.get? name = none) (process : ProcessEnvironment) :
    environment.pathValue process name = (process.get? name).getD [] := by
  rw [pathValue, expand?_of_missing missing]

/-- A path that is given by a new name, in terms of the text that the name stands for. -/
theorem pathValue_assign (fresh : environment.get? name = none) (apart : ¬environment.Leads text name)
    (process : ProcessEnvironment) :
    (environment.assign name text).pathValue process name =
      Fragment.readAll environment.valueOf (Fragment.split text) := by
  have found : (environment.assign name text).get? name = some text := by
    rw [get?_assign, if_pos rfl]
  rw [pathValue_of_live found, valueOf, expand?_assign fresh apart, Option.getD_some]

end Environment

namespace Fragment

variable {fragments : List Fragment}

theorem staticText_value (environment : Environment) (process : ProcessEnvironment)
    (fragments : List Fragment) :
    (staticText environment process fragments).value =
      readAll (environment.pathValue process) fragments := by
  induction fragments with
  | nil => rfl
  | cons first fragments ih =>
    have front : (static environment process first).value = first.read (environment.pathValue process) := by
      cases first with
      | literal text => rfl
      | reference name mode =>
        simp only [static, read, Environment.pathValue]
        cases environment.expand? name with
        | some expanded => simp [Noted.map]
        | none => cases process.get? name <;> simp [Mode.strip_nil]
    simp only [staticText, Noted.map, Noted.each, List.map_cons, List.flatten_cons] at ih ⊢
    rw [ih, front]
    rfl

/-- A part that is lost is missed, unless it was empty: what is behind does not make up for it. -/
theorem append_eq_iff_of_lost {left whole more rest : Text} (lost : left = whole ∨ left = [])
    (least : more.length ≤ rest.length) :
    (left ++ more).length ≤ (whole ++ rest).length ∧
      (left ++ more = whole ++ rest ↔ left = whole ∧ more = rest) := by
  rcases lost with rfl | rfl
  · simpa using least
  · simp only [List.nil_append, List.length_append]
    refine ⟨by omega, fun same => ?_, fun both => by rw [← both.1, both.2, List.nil_append]⟩
    have lengths := congrArg List.length same
    rw [List.length_append] at lengths
    obtain rfl : whole = [] := List.length_eq_zero_iff.1 (by omega)
    exact ⟨rfl, same⟩

/-- A text where some names have lost their values has lost a part with each of them. -/
theorem read_of_lost {left whole : Text → Text} (lost : ∀ name, left name = whole name ∨ left name = [])
    (fragment : Fragment) : fragment.read left = fragment.read whole ∨ fragment.read left = [] := by
  cases fragment with
  | literal text => exact .inl rfl
  | reference name mode =>
    rcases lost name with equal | empty
    · exact .inl (by rw [read, read, equal])
    · exact .inr (by rw [read, empty, mode.strip_nil])

/-- Where some names have lost their values, the text is the same if none of these is missed in it. -/
theorem readAll_eq_iff {left whole : Text → Text} (lost : ∀ name, left name = whole name ∨ left name = []) :
    (readAll left fragments).length ≤ (readAll whole fragments).length ∧
      (readAll left fragments = readAll whole fragments ↔
        ∀ name mode, reference name mode ∈ fragments → mode.strip (left name) = mode.strip (whole name)) := by
  induction fragments with
  | nil => simp [readAll]
  | cons first fragments ih =>
    obtain ⟨least, same⟩ := ih
    have parts : (∀ name mode, reference name mode ∈ first :: fragments →
        mode.strip (left name) = mode.strip (whole name)) ↔
        first.read left = first.read whole ∧ readAll left fragments = readAll whole fragments := by
      rw [same]
      cases first with
      | literal text => simp [read]
      | reference name mode =>
        constructor
        · exact fun each => ⟨each name mode List.mem_cons_self,
            fun inner mode member => each inner mode (List.mem_cons_of_mem _ member)⟩
        · rintro ⟨equal, others⟩ inner otherMode member
          rcases List.mem_cons.1 member with here | later
          · cases here
            exact equal
          · exact others inner otherMode later
    rw [parts]
    exact append_eq_iff_of_lost (read_of_lost lost first) least

end Fragment

namespace Render

variable {pass : Pass} {direct byName : Node} {name text : Text}

theorem staticPath_ok {node : Node} {fragments : List Fragment}
    (written : writtenFragments node = pure fragments)
    (deferred : ∀ name, .reference name .immediate ∉ fragments) (context : Context) (pass : Pass) :
    ∃ notes, staticPath context node pass =
      .ok (Fragment.readAll (pass.environment.pathValue context.process) fragments)
        { pass with notes } := by
  obtain ⟨notes, found⟩ := fragments_of_written written pass
  rw [Fragment.substituteAll_deferred _ _ deferred] at found
  refine ⟨notes ++ (Fragment.staticText pass.environment context.process fragments).notes, ?_⟩
  rw [staticPath, bind_ok found, ← Fragment.staticText_value]
  rfl

/-- Naming a path through a new variable: what the text leads to may hold whatever it will, and only
the names in the text itself that are not live are lost. -/
theorem staticPath_named_iff (context : Context)
    (spelled : writtenFragments direct = pure (Fragment.split text))
    (deferred : ∀ inner, .reference inner .immediate ∉ Fragment.split text)
    (named : writtenFragments byName = pure [.reference name .recursive])
    (fresh : pass.environment.get? name = none) (apart : ¬pass.environment.Leads text name) :
    ∃ path notes other otherNotes,
      staticPath context direct pass = .ok path { pass with notes } ∧
      staticPath context byName { pass with environment := pass.environment.assign name text } =
        .ok other { pass with
          environment := pass.environment.assign name text
          notes := otherNotes } ∧
      (other = path ↔ ∀ inner mode, .reference inner mode ∈ Fragment.split text →
        pass.environment.get? inner = none →
        ∀ value, context.process.get? inner = some value → mode.strip value = []) := by
  obtain ⟨notes, ran⟩ := staticPath_ok spelled deferred context pass
  obtain ⟨otherNotes, otherRan⟩ := staticPath_ok named (by simp) context
    { pass with environment := pass.environment.assign name text }
  refine ⟨_, notes, _, otherNotes, ran, otherRan, ?_⟩
  have through : Fragment.readAll ((pass.environment.assign name text).pathValue context.process)
      [.reference name .recursive] =
      Fragment.readAll pass.environment.valueOf (Fragment.split text) := by
    rw [Fragment.readAll, List.flatMap_singleton, Fragment.read, Environment.pathValue_assign fresh apart]
    rfl
  have lost (inner : Text) :
      pass.environment.valueOf inner = pass.environment.pathValue context.process inner ∨
        pass.environment.valueOf inner = [] := by
    cases held : pass.environment.get? inner with
    | some value => exact .inl (Environment.pathValue_of_live held _).symm
    | none => exact .inr (Environment.valueOf_of_missing held)
  rw [through, (Fragment.readAll_eq_iff lost).2]
  refine forall_congr' fun inner => forall_congr' fun mode => imp_congr_right fun _ => ?_
  cases held : pass.environment.get? inner with
  | some value => simp [Environment.pathValue_of_live held]
  | none =>
    rw [Environment.pathValue_of_missing held, Environment.valueOf_of_missing held]
    cases context.process.get? inner <;> simp [Mode.strip_nil, eq_comm (a := [])]

/-! A chain of references, with a name at its start that the process environment only has slashes for. -/

def pathContext (entries : List (Text × Text)) : Context where
  parse := Node.leaf .sourceFile 1
  load := fun _ => .error .notFound
  process := .ofPairs entries

def pathNode (fragments : List Fragment) : Node :=
  .leaf .path 1 (Fragment.toText fragments)

theorem writtenFragments_pathNode (fragments : List Fragment) :
    writtenFragments (pathNode fragments) = pure (Fragment.split (Fragment.toText fragments)) :=
  rfl

def chained : Environment :=
  (Environment.assign {} ['A'] (Fragment.toText [.reference ['B'] .stripping, .literal "/lib".toList])).assign
    ['B'] (Fragment.toText [.literal "src/".toList])

theorem not_refers_chained (outer : Text) : ¬chained.Refers outer ['V'] := by
  rintro ⟨value, mode, found, member⟩
  rw [chained, Environment.get?_assign, Environment.get?_assign] at found
  split at found
  · cases found
    rw [Fragment.split_toText_canonical (by decide)] at member
    simp at member
  · split at found
    · cases found
      rw [Fragment.split_toText_canonical (by decide)] at member
      simp at member
    · cases found

def chainedPath : List Fragment :=
  [.reference ['A'] .recursive, .reference ['U'] .stripping]

theorem chainedPath_named : ∃ path notes namedNotes,
    staticPath (pathContext [(['U'], ['/'])]) (pathNode chainedPath) { environment := chained } =
      .ok path { environment := chained, notes } ∧
    staticPath (pathContext [(['U'], ['/'])]) (pathNode [.reference ['V'] .recursive])
        { environment := chained.assign ['V'] (Fragment.toText chainedPath) } =
      .ok path
        { environment := chained.assign ['V'] (Fragment.toText chainedPath), notes := namedNotes } := by
  have cut : Fragment.split (Fragment.toText chainedPath) = chainedPath :=
    Fragment.split_toText_canonical (by decide)
  have byName := writtenFragments_pathNode [.reference ['V'] .recursive]
  rw [Fragment.split_toText_canonical (by decide)] at byName
  have fresh : ({ environment := chained } : Pass).environment.get? ['V'] = none := by decide
  have apart : ¬chained.Leads (Fragment.toText chainedPath) ['V'] :=
    Environment.not_leads (by rw [cut]; simp [chainedPath]) not_refers_chained
  obtain ⟨path, notes, named, namedNotes, ran, namedRan, same⟩ :=
    staticPath_named_iff (pathContext [(['U'], ['/'])]) (writtenFragments_pathNode chainedPath)
      (by rw [cut]; simp [chainedPath]) byName fresh apart
  have equal : named = path := same.2 fun inner mode member missing value set => by
    rw [cut] at member
    simp only [chainedPath, List.mem_cons, Fragment.reference.injEq, List.not_mem_nil, or_false] at member
    rcases member with ⟨rfl, rfl⟩ | ⟨rfl, rfl⟩
    · exact absurd missing (by decide)
    · obtain rfl : ['/'] = value := Option.some.inj (set.symm.trans (by decide)) |>.symm
      decide
  subst equal
  exact ⟨named, notes, namedNotes, ran, namedRan⟩

def homePath : List Fragment :=
  [.reference ['H'] .recursive]

/-- A name that only the process environment knows is found in a path and not behind a variable. -/
theorem homePath_lost :
    ({} : Environment).get? ['V'] = none ∧ ¬({} : Environment).Leads (Fragment.toText homePath) ['V'] ∧
      ∃ notes namedNotes,
        staticPath (pathContext [(['H'], "inc".toList)]) (pathNode homePath) {} =
          .ok "inc".toList { notes } ∧
        staticPath (pathContext [(['H'], "inc".toList)]) (pathNode [.reference ['V'] .recursive])
            { environment := Environment.assign {} ['V'] (Fragment.toText homePath) } =
          .ok [] { environment := Environment.assign {} ['V'] (Fragment.toText homePath), notes := namedNotes } := by
  have cut : Fragment.split (Fragment.toText homePath) = homePath :=
    Fragment.split_toText_canonical (by decide)
  have direct := writtenFragments_pathNode homePath
  have byName := writtenFragments_pathNode [.reference ['V'] .recursive]
  rw [Fragment.split_toText_canonical (by decide)] at direct byName
  have fresh : ({} : Environment).get? ['V'] = none := by decide
  have apart : ¬({} : Environment).Leads (Fragment.toText homePath) ['V'] :=
    Environment.not_leads (by rw [cut]; simp [homePath]) fun outer ⟨value, mode, found, _⟩ => by
      simp [Environment.get?, Table.get?] at found
  obtain ⟨notes, ran⟩ := staticPath_ok direct (by simp [homePath])
    (pathContext [(['H'], "inc".toList)]) {}
  obtain ⟨namedNotes, namedRan⟩ := staticPath_ok byName (by simp)
    (pathContext [(['H'], "inc".toList)])
    { environment := Environment.assign {} ['V'] (Fragment.toText homePath) }
  refine ⟨fresh, apart, notes, namedNotes, ran.trans ?_, namedRan.trans ?_⟩
  · rfl
  · rw [Fragment.readAll, List.flatMap_singleton, Fragment.read, Environment.pathValue_assign fresh apart,
      cut]
    rfl

end Render

end BmakeZig
