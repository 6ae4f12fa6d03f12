import BmakeZig.Compile
import BmakeZig.Proofs.Compile.Foresees
import BmakeZig.Proofs.Source.Shape

/-! The environment that a pass ends with foresees the run of the emitted program. What each statement
keeps is kept by all of them in turn; the declarations give the store it holds of at the start. -/
namespace BmakeZig

/-- A reference is to a live variable that is not written any more. -/
def Fragment.isSteady (environment : Environment) (later : List Text) : Fragment → Bool
  | .literal _ => true
  | .reference name _ => environment.contains name && !later.contains name

namespace Compile

/-- Whatever an assignment leaves unexpanded is steady: at that point the variable is live, and
neither that statement nor a later one writes it. -/
def steady (context : Context) : Environment → List Node → Bool
  | _, [] => true
  | environment, node :: rest =>
    (match node.kind with
      | .assignment _ false => (Render.left environment node).all
          (Fragment.isSteady environment ((node :: rest).flatMap Node.writes))
      | _ => true) &&
    match node.render context.settings.maxIncludeDepth context { environment } with
    | .ok _ after => steady context after.environment rest
    | .error _ _ => true

variable {context : Context} {environment : Environment} {node : Node} {rest : List Node}

theorem steady_cons (holds : steady context environment (node :: rest) = true) :
    (∀ appends, node.kind = .assignment appends false →
      ∀ inner mode, .reference inner mode ∈ Render.left environment node →
        environment.contains inner = true ∧ inner ∉ node.writes ++ rest.flatMap Node.writes) ∧
    ∀ text after,
      node.render context.settings.maxIncludeDepth context { environment } = .ok text after →
        steady context after.environment rest = true := by
  rw [steady, Bool.and_eq_true] at holds
  refine ⟨fun appends kind inner mode member => ?_, fun text after rendered => ?_⟩
  · have all := holds.1
    rw [kind] at all
    have single := List.all_eq_true.1 all _ member
    simpa [Fragment.isSteady] using single
  · have next := holds.2
    rw [rendered] at next
    exact next

/-- Every node is rendered by its plan, with one way to follow inclusions. -/
theorem render_eq_plan (depth : Nat) (context : Context) :
    ∃ follow, ∀ node : Node, node.render depth context = (node.plan context follow).text := by
  cases depth with
  | zero => exact ⟨_, fun _ => rfl⟩
  | succ depth => exact ⟨_, fun _ => rfl⟩

theorem bound_of_texts {follow : Node → Render Text} {nodes : List Node} {pass after : Pass}
    {lines : List Text} (shapes : ∀ node ∈ nodes, Shape .statement node)
    (straight : ∀ node ∈ nodes, node.isStraight = true)
    (rendered : Render.texts (nodes.map (Node.plan context follow)) pass = .ok lines after) :
    nodes.flatMap Node.writes ⊆ after.environment.bound ∧
      pass.environment.bound ⊆ after.environment.bound := by
  induction nodes generalizing pass lines with
  | nil =>
    cases rendered
    simp
  | cons node rest ih =>
    obtain ⟨text, more, middle, -, others, effect, -⟩ := Render.texts_cons
      (shapes node List.mem_cons_self) (straight node List.mem_cons_self) rendered
    obtain ⟨later, grown⟩ := ih (fun other member => shapes other (List.mem_cons_of_mem _ member))
      (fun other member => straight other (List.mem_cons_of_mem _ member)) others
    obtain ⟨first, start⟩ := effect.bound
    rw [List.flatMap_cons]
    exact ⟨List.append_subset.2 ⟨List.Subset.trans first grown, later⟩, List.Subset.trans start grown⟩

/-- What all statements keep, one after the other. -/
theorem foresees_of_texts {follow : Node → Render Text} {nodes : List Node} {pass after : Pass}
    {lines : List Text} {declared : List Text} {store : Table} {rank : Text → Nat} {time : Nat}
    (renders : ∀ node : Node,
      node.render context.settings.maxIncludeDepth context = (node.plan context follow).text)
    (shapes : ∀ node ∈ nodes, Shape .statement node)
    (straight : ∀ node ∈ nodes, node.isStraight = true)
    (plain : '$' ∉ context.settings.appendSeparator)
    (inside : nodes.flatMap Node.writes ⊆ declared)
    (holds : steady context pass.environment nodes = true)
    (foresees : Foresees declared (nodes.flatMap Node.writes) pass.environment store rank time)
    (rendered : Render.texts (nodes.map (Node.plan context follow)) pass = .ok lines after) :
    ∃ store' rank' time', lines.foldlM Zig.execute store = some store' ∧
      Foresees declared [] after.environment store' rank' time' := by
  induction nodes generalizing pass lines store rank time with
  | nil =>
    cases rendered
    exact ⟨store, rank, time, rfl, foresees⟩
  | cons node rest ih =>
    obtain ⟨text, more, middle, rfl, others, effect, notes, alone⟩ := Render.texts_cons
      (shapes node List.mem_cons_self) (straight node List.mem_cons_self) rendered
    obtain ⟨now, next⟩ := steady_cons holds
    rw [List.flatMap_cons] at inside foresees
    obtain ⟨first, later⟩ := List.append_subset.1 inside
    obtain ⟨store', rank', time', run, kept⟩ := foresees.step effect first plain now
    -- Steadiness speaks of passes that start afresh, and the statement does the same in one.
    have onwards : steady context middle.environment rest = true :=
      next text { environment := middle.environment, notes }
        ((congrFun (renders node) _).trans alone)
    obtain ⟨store'', rank'', time'', runs, final⟩ :=
      ih (fun other member => shapes other (List.mem_cons_of_mem _ member))
        (fun other member => straight other (List.mem_cons_of_mem _ member)) later onwards kept others
    refine ⟨store'', rank'', time'', ?_, final⟩
    rw [List.foldlM_cons, run]
    exact runs

/-! The store that a run starts with. -/

theorem seeds_value (environment : Environment) :
    (seeds environment).value = environment.bound.map fun name =>
      (name, ((environment.expand? name).map (·.value)).getD []) := by
  simp only [seeds, Noted.each, List.map_map]
  apply List.map_congr_left
  intro name _
  cases found : environment.expand? name <;> simp [Noted.map, found]

/-- A declared variable starts with the expansion of the name it had been bound to, or with
nothing. -/
theorem get?_declarations {final : Environment} {name : Text} (inside : name ∈ final.bound) :
    Table.get? (declarations (seeds environment).value final) name =
      some (if name ∈ environment.bound then ((environment.expand? name).map (·.value)).getD []
        else []) := by
  rw [declarations, Table.get?_map, if_pos inside, seeds_value, Table.get?_map]
  split <;> rfl

/-- Every stored value is a literal in written form. -/
def HoldsLiterals (environment : Environment) : Prop :=
  ∀ name value, environment.get? name = some value →
    ∃ text, value = Fragment.toText [.literal text]

namespace HoldsLiterals

theorem empty : HoldsLiterals {} := by
  intro name value got
  simp [Environment.get?, Table.get?] at got

theorem assign (literals : HoldsLiterals environment) (name text : Text) :
    HoldsLiterals (environment.assign name (Fragment.toText [.literal text])) := by
  intro other value got
  rw [Environment.get?_assign] at got
  split at got
  · exact ⟨text, (Option.some.inj got).symm⟩
  · exact literals other value got

theorem append (literals : HoldsLiterals environment) (name text : Text) {separator : Text}
    (plain : '$' ∉ separator) :
    HoldsLiterals (environment.append name (Fragment.toText [.literal text]) separator) := by
  obtain ⟨old, spelled⟩ :
      ∃ old, (environment.get? name).getD [] = Fragment.toText [.literal old] := by
    cases got : environment.get? name with
    | none => exact ⟨[], rfl⟩
    | some value => exact literals name value got
  -- The literals and the separator between them are one longer literal.
  have joined (between : Text) : Fragment.toText [.literal old, .literal between, .literal text] =
      Fragment.toText [.literal (old ++ between ++ text)] := by
    simp [Fragment.toText, Fragment.written]
  rw [Environment.append, spelled, ← Foresees.toText_appendedFragments plain]
  unfold Foresees.appendedFragments
  rw [List.singleton_append, joined]
  exact literals.assign name _

theorem undefine (literals : HoldsLiterals environment) (name : Text) :
    HoldsLiterals (environment.undefine name) := by
  intro other value got
  rw [Environment.get?_undefine] at got
  split at got
  · simp at got
  · exact literals other value got

end HoldsLiterals

theorem split_of_literal {value text : Text} (same : value = Fragment.toText [.literal text]) :
    Fragment.split value = Fragment.merge [.literal text] := by
  rw [same]
  apply Fragment.split_toText
  intro name mode member
  simp at member

theorem expand?_literal {name text : Text}
    (got : environment.get? name = some (Fragment.toText [.literal text])) :
    ((environment.expand? name).map (·.value)).getD [] = text := by
  have closed : ∀ inner mode, .reference inner mode ∉ Fragment.split (Fragment.toText [.literal text]) := by
    simp [split_of_literal rfl]
  rw [Environment.expand?_of_dead got fun inner mode member => absurd member (closed inner mode),
    split_of_literal rfl, Fragment.readAll_merge]
  simp [Fragment.readAll, Fragment.read]

theorem foresees_start (built : environment.Built) (literals : HoldsLiterals environment)
    {final : Environment} (grown : environment.bound ⊆ final.bound) (later : List Text) :
    Foresees final.bound later environment (declarations (seeds environment).value final)
      (fun _ => 0) 1 where
  known name live := grown (built.mem_bound name live)
  dead name inside missing := by
    have unbound : environment.expand? name = none := by
      rw [Environment.expand?, if_neg (Environment.not_contains_iff.2 missing)]
    rw [get?_declarations inside, unbound]
    split <;> rfl
  stored name value got := by
    have bound := built.mem_bound name (Environment.contains_iff.2 ⟨value, got⟩)
    obtain ⟨text, rfl⟩ := literals name value got
    refine ⟨[.literal text], by simp [Fragment.Named], rfl, ?_, by simp⟩
    rw [get?_declarations (grown bound), if_pos bound, expand?_literal got]
    simp [Fragment.readAll, Fragment.read]
  past name := by omega

/-! The pass. -/

theorem tree_ok {root : Node} {compiled : Compiled}
    (result : (tree context root environment).result = .ok compiled) :
    ∃ body pass, root.render context.settings.maxIncludeDepth context
        { environment, notes := (seeds environment).notes } = .ok body pass ∧
      compiled.environment = pass.environment ∧
      compiled.output = if context.settings.prelude then Zig.program body
        (declarations (seeds environment).value pass.environment) pass.usesBuilder else body := by
  unfold tree at result
  simp only at result
  split at result
  · simp at result
  · next body pass rendered =>
    simp only [Except.ok.injEq] at result
    exact ⟨body, pass, rendered, by rw [← result], by rw [← result]⟩

/-- A unit is rendered statement by statement, one below the other. -/
theorem render_parse {source body : Text} {follow : Node → Render Text} {pass after : Pass}
    (rendered : ((Source.parse source).plan context follow).text pass = .ok body after) :
    ∃ lines, body = Text.joinWith ['\n'] lines ∧
      Render.texts ((Source.parse source).children.map (Node.plan context follow)) pass =
        .ok lines after := by
  rw [Node.plan_text] at rendered
  change Render.lines ((Source.parse source).children.map (Node.plan context follow)) pass = _
    at rendered
  unfold Render.lines at rendered
  cases each : Render.texts ((Source.parse source).children.map (Node.plan context follow)) pass with
  | error fault last =>
    rw [Render.bind_error each] at rendered
    cases rendered
  | ok lines last =>
    rw [Render.bind_ok each] at rendered
    cases rendered
    exact ⟨lines, rfl, rfl⟩

/-- The emitted text, run from a store with the declared values. With the prelude the declarations
stand in the text as well, and give the variables the same values once more. -/
theorem execute_output {body : Text} {declared : List (Text × Text)} {usesBuilder : Bool}
    {store : Table} {later : List Text} {names : List Text} {rank : Text → Nat} {time : Nat}
    (prelude : Bool) (held : ∀ entry ∈ declared, store.get? entry.1 = some entry.2)
    (foresees : Foresees names later environment store rank time) :
    ∃ store', Foresees names later environment store' rank time ∧
      Zig.execute store (if prelude then Zig.program body declared usesBuilder else body) =
        Zig.execute store' body := by
  cases prelude with
  | false => exact ⟨store, foresees, rfl⟩
  | true =>
    obtain ⟨store', run, same⟩ := Zig.execute_declarations held
    refine ⟨store', foresees.congr same, ?_⟩
    rw [if_pos rfl, Zig.execute_program, run]
    rfl

/-- Running the emitted text of a straight unit, from the values its variables are declared with,
leaves every bound variable with what the environment expands it to in the end. -/
theorem source_run_foreseen (load : Loader) (settings : Settings) (process : ProcessEnvironment)
    (source : Text) (environment : Environment) (compiled : Compiled)
    (straight : ∀ child ∈ (Source.parse source).children, child.isStraight = true)
    (plain : '$' ∉ settings.appendSeparator) (built : environment.Built)
    (literals : HoldsLiterals environment)
    (holds : steady (standard load settings process) environment (Source.parse source).children = true)
    (result : (Compile.source (standard load settings process) source environment).result =
      .ok compiled) :
    ∃ store, Zig.execute (declarations (seeds environment).value compiled.environment)
        compiled.output = some store ∧
      ∀ name ∈ compiled.environment.bound, store.get? name =
        some (((compiled.environment.expand? name).map (·.value)).getD []) := by
  obtain ⟨follow, renders⟩ := render_eq_plan settings.maxIncludeDepth (standard load settings process)
  obtain ⟨body, pass, rendered, ending, output⟩ := tree_ok result
  have planned := (congrFun (renders (Source.parse source)) _).symm.trans rendered
  obtain ⟨lines, whole, statements⟩ := render_parse planned
  have shapes := Source.shape_of_parse source
  obtain ⟨inside, grown⟩ := bound_of_texts shapes straight statements
  have start := foresees_start built literals grown
    ((Source.parse source).children.flatMap Node.writes)
  have held : ∀ entry ∈ declarations (seeds environment).value pass.environment,
      Table.get? (declarations (seeds environment).value pass.environment) entry.1 =
        some entry.2 := by
    intro entry member
    obtain ⟨name, bound, rfl⟩ := List.mem_map.1 member
    rw [declarations, Table.get?_map, if_pos bound]
  obtain ⟨store, declared, same⟩ := execute_output settings.prelude held start
  obtain ⟨store', _, _, run, final⟩ :=
    foresees_of_texts renders shapes straight plain inside holds declared statements
  refine ⟨store', ?_, fun name bound => ?_⟩
  · rw [output, ending]
    change Zig.execute _ (if settings.prelude then _ else _) = _
    rw [same, whole, Zig.execute_joinWith, run]
  · rw [ending] at bound ⊢
    exact final.value bound

/-- All five assignments and an undefinition, over variables that are seeded and not. -/
def toolUnit : Text :=
  Text.joinWith ['\n'] <| List.map String.toList
    ["# tools", "BIN = $\x7bROOT\x7d/bin", "BIN += $(COST)", "NOW =% $[BIN]$(LATER)", "%undef NOW",
      "LATER =% x/", "NOW + $(COST)", "NOW +% $\x7bLATER\x7d$$", "LATER = y"]

def toolEnvironment : Environment :=
  ((((Environment.assign {} "ROOT".toList (Fragment.toText [.literal "/opt".toList])).append
    "ROOT".toList (Fragment.toText [.literal "/".toList]) "/".toList).assign
    "COST".toList (Fragment.toText [.literal "$5".toList])).undefine "OLD".toList)

def toolContext : Context :=
  standard (fun _ => .error .notFound) { appendSeparator := [' '] } []

theorem toolUnit_run_foreseen :
    (∀ child ∈ (Source.parse toolUnit).children, child.isStraight = true) ∧
      '$' ∉ toolContext.settings.appendSeparator ∧ toolEnvironment.Built ∧
      HoldsLiterals toolEnvironment ∧
      steady toolContext toolEnvironment (Source.parse toolUnit).children = true ∧
      ∃ compiled, (Compile.source toolContext toolUnit toolEnvironment).result = .ok compiled ∧
        ∃ store, Zig.execute (declarations (seeds toolEnvironment).value compiled.environment)
            compiled.output = some store ∧
          ∀ name ∈ compiled.environment.bound, store.get? name =
            some (((compiled.environment.expand? name).map (·.value)).getD []) := by
  have straight : ∀ child ∈ (Source.parse toolUnit).children, child.isStraight = true := by
    decide +kernel
  have built : toolEnvironment.Built :=
    .undefine (.assign (.append (.assign .empty _ _) _ _ _) _ _) _
  have literals : HoldsLiterals toolEnvironment :=
    (((HoldsLiterals.empty.assign _ _).append _ _ (by decide)).assign _ _).undefine _
  have holds : steady toolContext toolEnvironment (Source.parse toolUnit).children = true := by
    decide +kernel
  have succeeds : (Compile.source toolContext toolUnit toolEnvironment).result.isOk = true := by
    decide +kernel
  refine ⟨straight, by decide, built, literals, holds, ?_⟩
  cases result : (Compile.source toolContext toolUnit toolEnvironment).result with
  | error fault =>
    rw [result] at succeeds
    cases succeeds
  | ok compiled =>
    exact ⟨compiled, rfl, source_run_foreseen _ _ _ toolUnit toolEnvironment compiled straight
      (by decide) built literals holds result⟩

end Compile

end BmakeZig
