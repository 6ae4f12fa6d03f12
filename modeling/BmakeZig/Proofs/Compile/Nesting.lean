import BmakeZig.Compile
import BmakeZig.Proofs.Path
import BmakeZig.Proofs.Render.Change
import Mathlib.Data.List.Nodup

/-! Units inside units. At every moment of a pass the open units are distinct places in normal form,
none of them the outermost one, and no more of them than the settings allow. A unit that is found is
refused for being open or for want of room, and for nothing else; so units nested in a row are
rendered exactly when there is room for all of them. -/
namespace BmakeZig

namespace Context

/-- The units that are open follow the rules of nesting. -/
structure Nested (context : Context) : Prop where
  distinct : context.stack.Nodup
  normal : ∀ place ∈ context.stack, place.normalize = place
  apart : ∀ place ∈ context.stack, context.root ≠ some place
  bounded : context.stack.length ≤ context.settings.maxIncludeDepth

theorem nested_of_outermost {context : Context} (outermost : context.stack = []) : context.Nested := by
  constructor <;> simp [outermost]

theorem Nested.enter {context : Context} {place : Path} (nested : context.Nested)
    (normal : place.normalize = place) (closed : ¬context.Open place)
    (room : context.stack.length < context.settings.maxIncludeDepth) :
    (context.enter place).Nested where
  distinct := List.nodup_cons.2 ⟨fun inside => closed (.inr inside), nested.distinct⟩
  normal := List.forall_mem_cons.2 ⟨normal, nested.normal⟩
  apart := List.forall_mem_cons.2 ⟨fun same => closed (.inl same), nested.apart⟩
  bounded := room

end Context

namespace Moment

variable {start moment next : Moment} {place : Path} {source : Text} {middle : Pass}

/-! Along the calls of a run. -/

theorem normal_of_located
    (located : Render.located moment.context moment.node moment.pass = .ok (place, source) middle) :
    place.normalize = place := by
  obtain ⟨_, requested, found⟩ := Render.located_ok located
  exact (Context.normal_places (Path.mem_of_mem_distinct (mem_of_locate found))).1

theorem nested_of_reaches (reached : Reaches start moment) (nested : start.context.Nested) :
    moment.context.Nested := by
  induction reached with
  | refl => exact nested
  | tail before calls ih =>
    cases calls with
    | child rendered ran => exact ih
    | unit includes located closed room => exact ih.enter (normal_of_located located) closed room

/-- Folders that are searched stay proper paths. -/
theorem steady_searchDirs (start : Moment) : Steady start fun before after =>
    (∀ directory ∈ before.searchDirs, directory.Proper) →
      ∀ directory ∈ after.searchDirs, directory.Proper := by
  refine .of_changes ?_ ?_ ?_
  · intro before after calm proper
    rwa [calm.searchDirs]
  · exact fun one two proper => two (one proper)
  · intro moment before changed _ changes proper
    cases changes with
    | nothing | assignment | undef | step => exact proper
    | search kind directory =>
      intro folder member
      rcases List.mem_append.1 member with old | new
      · exact proper folder old
      · rw [List.mem_singleton.1 new]
        exact Path.proper_ofText directory

/-- The paths that places may start from are proper. -/
def Proper (moment : Moment) : Prop :=
  ∀ base ∈ moment.context.bases moment.pass.searchDirs, base.Proper

theorem Proper.located (proper : moment.Proper)
    (located : Render.located moment.context moment.node moment.pass = .ok (place, source) middle) :
    place.Proper := by
  obtain ⟨_, requested, found⟩ := Render.located_ok located
  exact Context.proper_places (Path.mem_of_mem_distinct (mem_of_locate found)) proper
    (Path.proper_ofText requested)

theorem mem_bases {base : Path} : base ∈ moment.context.bases moment.pass.searchDirs ↔
    base ∈ moment.context.root.toList ∨ base ∈ moment.context.stack ∨ base ∈ moment.pass.searchDirs ∨
      ∃ directory ∈ moment.context.settings.includeDirs, Path.ofText directory = base := by
  simp only [Context.bases, List.mem_append, List.mem_map, or_assoc]

theorem proper_of_reaches (reached : Reaches start moment) (proper : start.Proper) :
    moment.Proper := by
  have searched := (steady_searchDirs start).upTo reached fun directory member =>
    proper directory (mem_bases.2 (.inr (.inr (.inl member))))
  induction reached with
  | refl => exact proper
  | @tail moment next before calls ih =>
    have earlier : moment.Proper := ih ((steady_searchDirs start).upTo before fun directory member =>
      proper directory (mem_bases.2 (.inr (.inr (.inl member)))))
    intro base member
    rcases mem_bases.1 member with outermost | opened | found | ⟨directory, _, rfl⟩
    · rw [(Reaches.context (.single calls)).1] at outermost
      exact earlier base (mem_bases.2 (.inl outermost))
    · cases calls with
      | child rendered ran => exact earlier base (mem_bases.2 (.inr (.inl opened)))
      | unit includes located closed room =>
        rcases List.mem_cons.1 opened with rfl | older
        · exact earlier.located located
        · exact earlier base (mem_bases.2 (.inr (.inl older)))
    · exact searched base found
    · exact Path.proper_ofText directory

/-! The unit that a node includes. -/

section

variable (includes : moment.node.kind = .inclusion)
  (located : Render.located moment.context moment.node moment.pass = .ok (place, source) middle)

include includes located in
/-- A fault about units that comes out of a unit is raised at some inclusion inside it. -/
theorem inclusion_of_raised {after : Pass} {fault : Fault} (closed : ¬moment.context.Open place)
    (room : moment.context.stack.length < moment.context.settings.maxIncludeDepth)
    (ran : moment.run = .error fault after) (distant : fault.isLocal = false)
    (looked : ∀ path reason, fault ≠ .unitNotFound path reason) :
    ∃ (raiser : Moment) (inner : Path) (source : Text) (middle : Pass),
      Reaches moment raiser ∧ place :: moment.context.stack <:+ raiser.context.stack ∧
      Render.located raiser.context raiser.node raiser.pass = .ok (inner, source) middle ∧
      ((raiser.context.Open inner ∧
          fault = .inclusionCycle ((raiser.context.chain inner).map Path.toText)) ∨
        (¬raiser.context.Open inner ∧
          fault = .depthExceeded inner.toText raiser.context.settings.maxIncludeDepth)) := by
  have calls : Calls moment (moment.inside place source middle) := .unit includes located closed room
  rw [run_of_room includes located closed room] at ran
  cases inside : (moment.inside place source middle).run with
  | ok text last =>
    rw [inside] at ran
    cases ran
  | error other last =>
    rw [inside] at ran
    cases ran
    obtain ⟨raiser, reached, raises⟩ := raised_of_run_error inside
    have below := (Reaches.context reached).2.2.2
    cases raises with
    | finish other _ failed =>
      rw [Node.isLocal_of_finish other failed] at distant
      cases distant
    | located _ failed =>
      rcases Render.located_error failed with own | ⟨path, reason, same⟩
      · rw [own] at distant
        cases distant
      · exact absurd same (looked path reason)
    | @cycle inner source middle _ found already =>
      exact ⟨raiser, inner, source, middle, .head calls reached, below, found, .inl ⟨already, rfl⟩⟩
    | @depth inner source middle _ found closed _ =>
      exact ⟨raiser, inner, source, middle, .head calls reached, below, found, .inr ⟨closed, rfl⟩⟩

include includes located in
/-- A chain of units that comes from further inside is longer than that of the unit itself. -/
theorem cycle_iff :
    (∃ after, moment.run =
      .error (.inclusionCycle ((moment.context.chain place).map Path.toText)) after) ↔
      moment.context.Open place := by
  constructor
  · rintro ⟨after, ran⟩
    by_contra closed
    by_cases room : moment.context.stack.length < moment.context.settings.maxIncludeDepth
    · obtain ⟨raiser, inner, _, _, reached, below, _, ⟨_, same⟩ | ⟨_, same⟩⟩ :=
        inclusion_of_raised includes located closed room ran rfl (by simp)
      · have lengths := congrArg List.length (Fault.inclusionCycle.inj same)
        have deeper := below.length_le
        simp only [Context.chain, (Reaches.context reached).1, List.length_map, List.length_append,
          List.length_reverse, List.length_cons] at lengths deeper
        omega
      · cases same
    · rw [run_of_full includes located closed room] at ran
      cases ran
  · intro already
    exact ⟨middle, run_of_open includes located already⟩

include includes located in
/-- A unit for which there is no room further inside is another one: this one is open there. -/
theorem depth_iff (nested : moment.context.Nested) (proper : moment.Proper)
    (closed : ¬moment.context.Open place) :
    (∃ after, moment.run =
      .error (.depthExceeded place.toText moment.context.settings.maxIncludeDepth) after) ↔
      moment.context.stack.length = moment.context.settings.maxIncludeDepth := by
  constructor
  · rintro ⟨after, ran⟩
    by_contra other
    have room : moment.context.stack.length < moment.context.settings.maxIncludeDepth :=
      Nat.lt_of_le_of_ne nested.bounded other
    obtain ⟨raiser, inner, _, _, reached, below, found, ⟨_, same⟩ | ⟨shut, same⟩⟩ :=
      inclusion_of_raised includes located closed room ran rfl (by simp)
    · cases same
    · have texts := (Fault.depthExceeded.inj same).1
      have place_eq : place = inner := Path.toText_injective (proper.located located)
        ((proper_of_reaches reached proper).located found) texts
      exact shut (.inr (below.subset (place_eq ▸ List.mem_cons_self)))
  · intro full
    exact ⟨middle, run_of_full includes located closed (by omega)⟩

/-- The texts of a chain are those of the open units, each once, and one of them again. -/
theorem chain_texts (nested : moment.context.Nested) (proper : moment.Proper)
    (already : moment.context.Open place) :
    ((moment.context.root.toList ++ moment.context.stack.reverse).map Path.toText).Nodup ∧
      place.toText ∈ (moment.context.root.toList ++ moment.context.stack.reverse).map Path.toText := by
  have each : ∀ unit ∈ moment.context.root.toList ++ moment.context.stack.reverse, unit.Proper := by
    intro unit member
    apply proper unit
    rcases List.mem_append.1 member with outermost | opened
    · exact mem_bases.2 (.inl outermost)
    · exact mem_bases.2 (.inr (.inl (List.mem_reverse.1 opened)))
  constructor
  · apply List.Nodup.map_on
    · exact fun one first two second => Path.toText_injective (each one first) (each two second)
    · apply List.Nodup.append
      · cases moment.context.root <;> simp
      · exact List.nodup_reverse.2 nested.distinct
      · intro unit outermost opened
        exact nested.apart unit (List.mem_reverse.1 opened) (Option.mem_toList.1 outermost)
  · apply List.mem_map_of_mem
    rcases already with same | inside
    · exact List.mem_append_left _ (Option.mem_toList.2 same)
    · exact List.mem_append_right _ (List.mem_reverse.2 inside)

end

/-! Units nested in a row. -/

/-- A unit with a statement that includes another one, and so on inwards, down to a unit that renders
by itself. What else there is in these units renders too. -/
inductive Nest : Moment → List Path → Prop where
  | innermost {moment : Moment} {text : Text} {after : Pass} (ran : moment.run = .ok text after) :
      Nest moment []
  | around {moment : Moment} {before later : List Node} {statement : Node} {said : List Text}
      {pass middle : Pass} {place : Path} {source : Text} {places : List Path}
      (kind : moment.node.kind = .sourceFile)
      (children : moment.node.children = before ++ statement :: later)
      (front : moment.context.texts before moment.pass = .ok said pass)
      (includes : statement.kind = .inclusion)
      (located : Render.located moment.context statement pass = .ok (place, source) middle)
      (closed : ¬moment.context.Open place)
      (inner : Nest ((Moment.mk moment.context statement pass).inside place source middle) places)
      (back : ∀ pass, ∃ said after, moment.context.texts later pass = .ok said after) :
      Nest moment (place :: places)

theorem Nest.distinct {places : List Path} (nest : Nest moment places) :
    places.Nodup ∧ ∀ place ∈ places, ¬moment.context.Open place := by
  induction nest with
  | innermost => simp
  | @around moment _ _ _ _ _ _ place _ places _ _ _ _ _ closed _ _ ih =>
    have fresh : ∀ other ∈ places, other ≠ place ∧ ¬moment.context.Open other := by
      intro other member
      have shut := ih.2 other member
      constructor
      · rintro rfl
        exact shut (.inr List.mem_cons_self)
      · rintro (outermost | inside)
        · exact shut (.inl outermost)
        · exact shut (.inr (List.mem_cons_of_mem _ inside))
    constructor
    · exact List.nodup_cons.2 ⟨fun member => (fresh place member).1 rfl, ih.1⟩
    · exact List.forall_mem_cons.2 ⟨closed, fun other member => (fresh other member).2⟩

/-- Induction on the nest: a unit renders when there is room for the one that it includes, and that
one renders with one room less. -/
theorem Nest.run_iff {places : List Path} (nest : Nest moment places) :
    (∃ text after, moment.run = .ok text after) ↔ places.length ≤ moment.context.room := by
  induction nest with
  | innermost ran => exact ⟨fun _ => Nat.zero_le _, fun _ => ⟨_, _, ran⟩⟩
  | @around moment before later statement said pass middle place source places kind children front
      includes located closed inner back ih =>
    have other : moment.node.kind ≠ .inclusion := by simp [kind]
    have rendered : moment.node.rendered = before ++ statement :: later := by
      simp only [Node.rendered, kind, children]
    rw [List.length_cons]
    have room : (Moment.mk moment.context statement pass |>.inside place source middle).context.room =
        moment.context.room - 1 := by
      simp only [inside, Context.room, Context.enter, List.length_cons]
      omega
    rw [room] at ih
    constructor
    · rintro ⟨text, after, ran⟩
      rcases of_run_ok ran with ⟨_, said, last, ran, _⟩ | ⟨same, _⟩
      · rw [rendered] at ran
        obtain ⟨_, text, _, _, next, _, begun, own, _⟩ := texts_split ran
        cases front.symm.trans begun
        rcases of_run_ok own with ⟨different, _⟩ | ⟨_, _, _, _, _, found, _, space, ran⟩
        · exact absurd includes different
        · cases located.symm.trans found
          have fits := ih.1 ⟨_, _, ran⟩
          simp only [Context.room] at fits space ⊢
          omega
      · exact absurd same other
    · intro fits
      have space : moment.context.stack.length < moment.context.settings.maxIncludeDepth := by
        simp only [Context.room] at fits
        omega
      obtain ⟨text, after, ran⟩ := ih.2 (by omega)
      have own := @run_of_room (.mk moment.context statement pass) _ _ _ includes located closed space
      rw [ran] at own
      obtain ⟨more, last, rest⟩ := back after
      have all := texts_append front (texts_append (texts_single own) rest)
      have closes (texts : List Text) (pass : Pass) : moment.node.finish moment.context texts pass =
          .ok (Text.joinWith ['\n'] texts) pass := by
        simp only [Node.finish, kind]
        rfl
      rw [run_eq_finish other, rendered]
      exact ⟨_, last, (Render.bind_ok all).trans (closes _ last)⟩

end Moment

namespace Compile

variable {context : Context} {root : Node} {environment : Environment}

/-- The moment at which the pass over a tree starts. -/
def start (context : Context) (root : Node) (environment : Environment) : Moment where
  context
  node := root
  pass := { environment, notes := (seeds environment).notes }

theorem run_start (outermost : context.stack = []) :
    (start context root environment).run = root.render context.settings.maxIncludeDepth context
      { environment, notes := (seeds environment).notes } := by
  simp only [Moment.run, start, Context.room, outermost, List.length_nil, Nat.sub_zero]

theorem result_error_iff (outermost : context.stack = []) {fault : Fault} :
    (tree context root environment).result = .error fault ↔
      ∃ after, (start context root environment).run = .error fault after := by
  rw [run_start outermost, tree]
  split
  · next other pass ran =>
    rw [ran]
    simp
  · next body pass ran =>
    rw [ran]
    simp

/-- The surroundings of a unit that was read from `origin`, or from no path. -/
def around (parse : Text → Node) (load : Loader) (settings : Settings) (process : ProcessEnvironment)
    (origin : Option Text) : Context where
  parse
  load
  process
  settings
  root := origin.map fun text => (Path.ofText text).normalize

/-- In every pass: calls come to an end, the open units follow the rules of nesting, a unit that is
found is refused for a cycle or for its depth exactly where these would be broken, and units nested
in a row are rendered exactly when the settings allow as many. -/
theorem inclusions_nest (parse : Text → Node) (load : Loader) (settings : Settings)
    (process : ProcessEnvironment) (origin : Option Text) (root : Node) (environment : Environment) :
    let context := around parse load settings process origin
    let first := start context root environment
    (∀ fault, (tree context root environment).result = .error fault ↔
      ∃ after, first.run = .error fault after) ∧
    WellFounded (fun next moment : Moment => moment.Calls next) ∧
    (∀ moment, first.Reaches moment →
      moment.context.Nested ∧
      (∀ next, moment.Calls next →
        (moment.node.kind ≠ .inclusion ∧ next.context = moment.context) ∨
          (moment.node.kind = .inclusion ∧ ∃ place, next.context = moment.context.enter place)) ∧
      ∀ place source middle, moment.node.kind = .inclusion →
        Render.located moment.context moment.node moment.pass = .ok (place, source) middle →
        let opened := (context.root.toList ++ moment.context.stack.reverse).map Path.toText
        ((∃ after, moment.run = .error (.inclusionCycle (opened ++ [place.toText])) after) ↔
          context.root = some place ∨ place ∈ moment.context.stack) ∧
        (context.root = some place ∨ place ∈ moment.context.stack →
          opened.Nodup ∧ place.toText ∈ opened) ∧
        (¬(context.root = some place ∨ place ∈ moment.context.stack) →
          ((∃ after, moment.run =
            .error (.depthExceeded place.toText settings.maxIncludeDepth) after) ↔
              moment.context.stack.length = settings.maxIncludeDepth))) ∧
    ∀ places, first.Nest places → places.Nodup ∧
      ((∃ text after, first.run = .ok text after) ↔ places.length ≤ settings.maxIncludeDepth) := by
  intro context first
  have nested : first.context.Nested := Context.nested_of_outermost rfl
  have proper : first.Proper := by
    intro base member
    rcases Moment.mem_bases.1 member with outermost | opened | found | ⟨directory, _, rfl⟩
    · obtain ⟨text, _, rfl⟩ := Option.map_eq_some_iff.1 (Option.mem_toList.1 outermost)
      exact (Path.proper_ofText text).normalize
    · cases opened
    · cases found
    · exact Path.proper_ofText directory
  refine ⟨fun fault => result_error_iff rfl, Moment.wellFounded_calls, ?_, ?_⟩
  · intro moment reached
    have here := Moment.nested_of_reaches reached nested
    obtain ⟨sameRoot, sameSettings, _, _⟩ := Moment.Reaches.context reached
    refine ⟨here, fun next calls => calls.context, ?_⟩
    intro place source middle includes located opened
    have known := Moment.proper_of_reaches reached proper
    have same : context.root = moment.context.root := sameRoot.symm
    have chain : opened ++ [place.toText] = (moment.context.chain place).map Path.toText := by
      simp [opened, Context.chain, same]
    have shown : (context.root = some place ∨ place ∈ moment.context.stack) ↔
        moment.context.Open place := by
      rw [same, Context.Open]
    have limit : settings.maxIncludeDepth = moment.context.settings.maxIncludeDepth :=
      congrArg Settings.maxIncludeDepth sameSettings.symm
    simp only [chain, shown, limit]
    refine ⟨Moment.cycle_iff includes located, fun already => ?_, Moment.depth_iff includes located here known⟩
    have texts := Moment.chain_texts here known already
    rwa [← same] at texts
  · intro places nest
    exact ⟨nest.distinct.1, nest.run_iff⟩

def nearStatement : Node :=
  .branch .inclusion 1 "%include near.mk".toList [.leaf .path 1 "near.mk".toList]

/-- A unit that includes the one next to it. -/
def pointingUnit : Node :=
  .branch .sourceFile 1 "%include near.mk".toList [nearStatement]

def nearPlace : Path :=
  ⟨false, [.name "near.mk".toList]⟩

/-- A reader and a loader that find a unit of one comment everywhere. -/
def remarkEverywhere (limit : Nat) (origin : Option Text) : Context :=
  around (fun _ => .branch .sourceFile 1 "# near".toList [.leaf .comment 1 "# near".toList])
    (fun _ => .ok "# near".toList) { maxIncludeDepth := limit } [] origin

/-- The pass that starts with the unit above. -/
def pointing (limit : Nat) (origin : Option Text) : Moment :=
  start (remarkEverywhere limit origin) pointingUnit {}

theorem located_near (limit : Nat) {origin : Option Text}
    (short : origin ∈ [none, some "near.mk".toList]) :
    Render.located (remarkEverywhere limit origin) nearStatement (pointing limit origin).pass =
      .ok (nearPlace, "# near".toList) (pointing limit origin).pass := by
  simp only [List.mem_cons, List.not_mem_nil, or_false] at short
  rcases short with rfl | rfl <;> with_unfolding_all rfl

theorem nest_pointing (limit : Nat) (short : limit < 2) :
    (pointing limit none).Nest [nearPlace] := by
  refine @Moment.Nest.around (pointing limit none) [] [] nearStatement [] (pointing limit none).pass
    _ _ _ [] rfl rfl rfl rfl (located_near limit (by simp)) ?_ ?_ ?_
  · rintro (outermost | inside)
    · cases outermost
    · cases inside
  · apply Moment.Nest.innermost
    obtain rfl | rfl : limit = 0 ∨ limit = 1 := by omega
    · rfl
    · rfl
  · exact fun pass => ⟨_, _, rfl⟩

theorem pointing_nests :
    ((pointing 1 none).Nest [nearPlace] ∧ ∃ text after, (pointing 1 none).run = .ok text after) ∧
    ((pointing 0 none).Nest [nearPlace] ∧
      ¬∃ text after, (pointing 0 none).run = .ok text after) ∧
    ∃ moment, (pointing 0 (some "near.mk".toList)).Reaches moment ∧ moment.context.Nested ∧
      ∃ after, moment.run =
        .error (.inclusionCycle ["near.mk".toList, "near.mk".toList]) after := by
  have origin : some "near.mk".toList ∈ [none, some "near.mk".toList] := by simp
  have called : (pointing 0 (some "near.mk".toList)).Reaches
      ⟨remarkEverywhere 0 (some "near.mk".toList), nearStatement,
        (pointing 0 (some "near.mk".toList)).pass⟩ :=
    .single (@Moment.Calls.child (pointing 0 (some "near.mk".toList)) [] [] nearStatement [] _ rfl rfl)
  obtain ⟨_, _, _, one⟩ := inclusions_nest _ _ { maxIncludeDepth := 1 } [] none pointingUnit {}
  obtain ⟨_, _, _, none⟩ := inclusions_nest _ _ { maxIncludeDepth := 0 } [] none pointingUnit {}
  obtain ⟨_, _, moments, _⟩ := inclusions_nest _ _ { maxIncludeDepth := 0 } []
    (some "near.mk".toList) pointingUnit {}
  obtain ⟨nested, _, units⟩ := moments _ called
  refine ⟨⟨nest_pointing 1 (by decide), ?_⟩, ⟨nest_pointing 0 (by decide), ?_⟩, _, called, nested, ?_⟩
  · exact (one _ (nest_pointing 1 (by decide))).2.2 (by decide)
  · intro ran
    exact absurd ((none _ (nest_pointing 0 (by decide))).2.1 ran) (by decide)
  · exact (units nearPlace _ _ rfl (located_near 0 origin)).1.2 (.inl rfl)

end Compile

end BmakeZig
