import BmakeZig.Proofs.Environment.Reference
import BmakeZig.Proofs.Render.Change
import BmakeZig.Proofs.Render.Separator

/-! Assignments that expand their value. The statement and the store get one text without references:
the value as it stands once immediate references are put in place, with every name fully expanded. For
names that do not lead back to themselves it makes no difference whether a reference is immediate. -/
namespace BmakeZig

open Relation (TransGen)

namespace Fragment

variable {environment : Environment} {line : Nat} {fragment : Fragment} {fragments : List Fragment}
  {text : Text}

theorem freeze_value (environment : Environment) (line : Nat) (fragment : Fragment) :
    (freeze environment line fragment).value = .literal (fragment.read environment.valueOf) := by
  cases fragment with
  | literal text => rfl
  | reference name mode =>
    rw [freeze, read, Environment.valueOf]
    cases environment.expand? name with
    | none => rw [Option.map_none, Option.getD_none, mode.strip_nil]
    | some expanded => rfl

theorem readAll_each {values others : Text → Text} {change : Fragment → Noted Fragment}
    (same : ∀ fragment, (change fragment).value.read others = fragment.read values)
    (fragments : List Fragment) :
    readAll others (Noted.each change fragments).value = readAll values fragments := by
  simp only [Noted.each, List.map_map, readAll, List.flatMap_map, Function.comp_def, same]

/-- What is kept of a value that is expanded holds the value, fully expanded, and no reference. -/
theorem spells_freeze (environment : Environment) (line : Nat) (fragments : List Fragment) :
    Spells (Noted.each (freeze environment line) fragments).value
      (readAll environment.valueOf fragments) where
  whole := readAll_each (fun fragment => by rw [freeze_value, read]) fragments
  plain := fun _ _ => reference_not_mem_freeze

theorem Spells.merge_eq (spells : Spells fragments text) : merge fragments = merge [literal text] := by
  have named : Named fragments := fun name mode member => absurd member (spells.plain name mode)
  rw [← split_toText named, spells.toText_eq, split_written_literal]

theorem expression_of_spells (spells : Spells fragments text) (environment : Environment) :
    expression environment fragments = Zig.literal text := by
  rw [expression, spells.merge_eq]
  cases text <;> rfl

/-! Putting immediate references in place. -/

theorem read_settle (environment : Environment) (fragment : Fragment) :
    (settle environment fragment).value.read environment.valueOf = fragment.read environment.valueOf := by
  unfold settle
  split
  · next name =>
    rw [read, Environment.valueOf]
    cases environment.expand? name <;> rfl
  · rfl

/-- A value that is put in place comes to what the name does. -/
theorem readAll_substitute (line : Nat)
    (apart : ∀ name, fragment = reference name .immediate → ¬TransGen environment.Refers name name) :
    readAll environment.valueOf (substitute environment line fragment).value =
      fragment.read environment.valueOf := by
  unfold substitute
  split
  · next name =>
    rw [read]
    cases found : environment.get? name with
    | none =>
      rw [Environment.valueOf_of_missing found]
      rfl
    | some value =>
      -- The modes of the references in the value stay; an immediate one takes nothing off.
      change _ = environment.valueOf name
      rw [Environment.valueOf_of_acyclic found (apart name rfl)]
      exact readAll_each (read_settle environment) (split value)
  · exact List.flatMap_singleton ..

/-- Immediate references are put in place without a change to what the fragments come to. -/
theorem readAll_substituteAll (line : Nat)
    (apart : ∀ name, reference name .immediate ∈ fragments → ¬TransGen environment.Refers name name) :
    readAll environment.valueOf (substituteAll environment line fragments).value =
      readAll environment.valueOf fragments := by
  rw [substituteAll_value]
  induction fragments with
  | nil => rfl
  | cons first fragments ih =>
    have rest := ih fun name member => apart name (List.mem_cons_of_mem _ member)
    have front : readAll environment.valueOf (substitute environment line first).value =
        first.read environment.valueOf :=
      readAll_substitute line fun name same => apart name (same ▸ List.mem_cons_self)
    rw [List.flatMap_cons, readAll_append, rest, front]
    rfl

/-- A reference between two texts. -/
def around (front : Text) (name : Text) (mode : Mode) (back : Text) : List Fragment :=
  merge [.literal front, .reference name mode, .literal back]

theorem readAll_around (values : Text → Text) (front name back : Text) (mode : Mode) :
    readAll values (around front name mode back) = front ++ mode.strip (values name) ++ back := by
  rw [around, readAll_merge]
  simp [readAll, read]

theorem mem_around {front name back inner : Text} {mode other : Mode}
    (member : reference inner other ∈ around front name mode back) : inner = name ∧ other = mode := by
  simpa [around] using member

theorem split_around {front name back : Text} (named : Text.isName name = true) (mode : Mode)
    (plainFront : '$' ∉ front) (plainBack : '$' ∉ back) :
    split (front ++ written (.reference name mode) ++ back) = around front name mode back := by
  have names : Named [.literal front, .reference name mode, .literal back] := by
    intro inner other member
    obtain ⟨rfl, -⟩ : inner = name ∧ other = mode := by simpa using member
    exact named
  rw [around, ← split_toText names]
  simp [toText, written_plain plainFront, written_plain plainBack]

end Fragment

/-- The node assigns to the variable what the fragments come to when they are expanded. -/
structure Node.Expands (node : Node) (name : Text) (written : List Fragment) : Prop where
  kind : node.kind = .assignment false true
  target : ∃ target, node.find? .identifier = some target ∧ target.text = name
  value : ∃ value, node.namedChild? 1 = some value ∧ Render.writtenFragments value = pure written

namespace Moment

variable {moment : Moment} {text : Text} {after : Pass}

/-- The moment sets the variable to the text, in the program and for the rest of the pass. -/
def Sets (moment : Moment) (name text : Text) : Prop :=
  ∃ after, moment.run = .ok (Zig.set name (Zig.literal text)) after ∧
    after.environment = moment.pass.environment.assign name (Fragment.written (.literal text))

theorem run_of_assignment {appends expands : Bool} (kind : moment.node.kind = .assignment appends expands) :
    moment.run =
      Render.assignment moment.context.settings moment.node appends expands moment.pass := by
  rw [run_of_bare (by simp only [Node.rendered, kind]) (by simp [kind])]
  simp only [Node.finish, Render.node, kind]

theorem sets_of_expanding {target : Node} {found : List Fragment} {middle : Pass}
    (kind : moment.node.kind = .assignment false true)
    (aimed : moment.node.find? .identifier = some target)
    (valued : Render.valueFragments moment.node moment.pass = .ok found middle) :
    moment.Sets target.text (Fragment.readAll moment.pass.environment.valueOf found) := by
  have calm := (Render.modest_valueFragments moment.node).ok valued
  have spells := Fragment.spells_freeze moment.pass.environment moment.node.line found
  obtain ⟨notes, stored⟩ :=
    Render.store_ok moment.context.settings target.text moment.node.line false true found middle
  have ran := run_of_assignment kind
  rw [Render.assignment_eq, aimed, Render.require_some, pure_bind, Render.bind_ok valued, stored,
    calm.environment] at ran
  refine ⟨_, ran.trans (congrArg (EStateM.Result.ok · _) ?_), ?_⟩
  · exact congrArg (Zig.set target.text) (Fragment.expression_of_spells spells _)
  · exact congrArg (moment.pass.environment.assign target.text) spells.toText_eq

theorem of_expanding_run (kind : moment.node.kind = .assignment false true)
    (ran : moment.run = .ok text after) :
    ∃ target found middle, moment.node.find? .identifier = some target ∧
      Render.valueFragments moment.node moment.pass = .ok found middle := by
  rw [run_of_assignment kind, Render.assignment_eq] at ran
  obtain ⟨target, _, required, rest⟩ := Render.of_bind_ok ran
  obtain ⟨found, middle, valued, _⟩ := Render.of_bind_ok rest
  obtain ⟨aimed, rfl⟩ := Render.of_require required
  exact ⟨target, found, middle, aimed, valued⟩

/-- The fragments as they are written decide, as long as no name in them that is put in place leads
back to itself. -/
theorem sets_of_expands {name : Text} {written : List Fragment}
    (expands : moment.node.Expands name written)
    (apart : ∀ inner, .reference inner .immediate ∈ written →
      ¬TransGen moment.pass.environment.Refers inner inner) :
    moment.Sets name (Fragment.readAll moment.pass.environment.valueOf written) := by
  obtain ⟨kind, ⟨target, aimed, rfl⟩, value, second, spelled⟩ := expands
  obtain ⟨notes, valued⟩ := Render.fragments_of_written spelled moment.pass
  have whole : Render.valueFragments moment.node = Render.fragments value := by
    unfold Render.valueFragments
    rw [second]
  rw [← whole] at valued
  rw [← Fragment.readAll_substituteAll value.line apart]
  exact sets_of_expanding kind aimed valued

end Moment

/-- All ways of expanding a name agree, unless it leads back to itself. -/
theorem Environment.expansions_agree {environment : Environment} {name value : Text}
    (found : environment.get? name = some value) (apart : ¬TransGen environment.Refers name name) :
    (environment.expand? name).map (·.value) =
        some (Fragment.readAll environment.valueOf (Fragment.split value)) ∧
      (∀ mode front back, Text.isName name = true → '$' ∉ front → '$' ∉ back →
        Fragment.split (front ++ Fragment.written (.reference name mode) ++ back) =
          Fragment.around front name mode back) ∧
      ∀ (deferred immediate : Moment) (target front back : Text),
        deferred.pass.environment = environment → immediate.pass.environment = environment →
        deferred.node.Expands target (Fragment.around front name .recursive back) →
        immediate.node.Expands target (Fragment.around front name .immediate back) →
        ∃ text first second, deferred.run = .ok text first ∧ immediate.run = .ok text second ∧
          second.environment = first.environment := by
  refine ⟨expand?_of_acyclic found apart, ?_, ?_⟩
  · exact fun mode front back named plainFront plainBack =>
      Fragment.split_around named mode plainFront plainBack
  · rintro ⟨_, _, pass⟩ ⟨_, _, other⟩ target front back rfl same expands expandsAtOnce
    obtain ⟨first, ran, stored⟩ := Moment.sets_of_expands expands fun inner member => by
      cases (Fragment.mem_around member).2
    obtain ⟨second, ranAtOnce, storedAtOnce⟩ := Moment.sets_of_expands expandsAtOnce fun inner member => by
      rw [(Fragment.mem_around member).1, same]
      exact apart
    rw [same, Fragment.readAll_around] at ranAtOnce storedAtOnce
    rw [Fragment.readAll_around] at ran stored
    exact ⟨_, first, second, ran, ranAtOnce, storedAtOnce.trans stored.symm⟩

/-! A name that leads to two others, with a reference of every kind in its value. -/

namespace Render

def layered : Environment :=
  ((Environment.assign {} "AB".toList "$(A)-$\x7bB\x7d$[A]".toList).assign ['A'] "1$$".toList).assign
    ['B'] "d//".toList

/-- Longer names refer to shorter ones. -/
theorem falls_layered {outer inner : Text} (refers : layered.Refers outer inner) :
    inner.length < outer.length := by
  obtain ⟨value, mode, found, member⟩ := refers
  simp only [layered, Environment.get?_assign] at found
  split at found
  · cases found
    rw [show Fragment.split "d//".toList = [.literal "d//".toList] by decide +kernel] at member
    simp at member
  split at found
  · cases found
    rw [show Fragment.split "1$$".toList = [.literal "1$".toList] by decide +kernel] at member
    simp at member
  split at found
  · next same =>
    cases found
    rw [show Fragment.split "$(A)-$\x7bB\x7d$[A]".toList = [.reference ['A'] .recursive, .literal ['-'],
      .reference ['B'] .stripping, .reference ['A'] .immediate] by decide +kernel] at member
    simp only [List.mem_cons, Fragment.reference.injEq, reduceCtorEq, List.not_mem_nil, false_or,
      or_false] at member
    rcases member with ⟨rfl, -⟩ | ⟨rfl, -⟩ | ⟨rfl, -⟩ <;> simp [same]
  · cases found

def plainContext : Context where
  parse := Node.leaf .sourceFile 1
  load := fun _ => .error .notFound

def expanding (text : Text) : Node :=
  .branch (.assignment false true) 1 ("Z =% ".toList ++ text)
    [.leaf .identifier 1 ['Z'], .token 1 "=%".toList, .leaf .value 1 text]

theorem expands_expanding (text : Text) : (expanding text).Expands ['Z'] (Fragment.split text) where
  kind := rfl
  target := ⟨_, rfl, rfl⟩
  value := ⟨_, rfl, rfl⟩

theorem layered_agrees : layered.get? "AB".toList = some "$(A)-$\x7bB\x7d$[A]".toList ∧
    ¬TransGen layered.Refers "AB".toList "AB".toList ∧
    (layered.expand? "AB".toList).map (·.value) = some "1$-d1$".toList ∧
    ∃ text first second,
      (Moment.mk plainContext (expanding "a/$(AB)/b".toList) { environment := layered }).run =
        .ok text first ∧
      (Moment.mk plainContext (expanding "a/$[AB]/b".toList) { environment := layered }).run =
        .ok text second ∧
      second.environment = first.environment := by
  have found : layered.get? "AB".toList = some "$(A)-$\x7bB\x7d$[A]".toList := by decide
  have apart := Environment.not_transGen_refers_of_falls falls_layered "AB".toList
  obtain ⟨-, cut, agree⟩ := Environment.expansions_agree found apart
  have held (mode : Mode) : (expanding ("a/".toList ++ Fragment.written (.reference "AB".toList mode) ++
      "/b".toList)).Expands ['Z'] (Fragment.around "a/".toList "AB".toList mode "/b".toList) := by
    rw [← cut mode _ _ (by decide) (by decide) (by decide)]
    exact expands_expanding _
  exact ⟨found, apart, by decide +kernel, agree _ _ _ _ _ rfl rfl (held .recursive) (held .immediate)⟩

end Render

end BmakeZig
