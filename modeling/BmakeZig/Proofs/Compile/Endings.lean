import BmakeZig.Compile
import BmakeZig.Proofs.Render.Endings
import BmakeZig.Proofs.Source.Echo.Unit
import BmakeZig.Proofs.Source.Shape

/-! Line feeds and carriage returns with line feeds. A unit compiles to the same program under both, with
the same warnings, notes and environment. -/
namespace BmakeZig

/-! What the nodes of a unit hold is part of it. -/

theorem exists_maps_of_forall₂ {source : Text} {starts : List Nat} {nodes : List Node}
    (maps : List.Forall₂ (Maps source) starts nodes) : ∀ node ∈ nodes, ∃ offset, Maps source offset node := by
  induction maps with
  | nil => simp
  | cons first _ ih => exact List.forall_mem_cons.2 ⟨⟨_, first⟩, ih⟩

/-- Every node of a tree that maps a source holds a part of it. -/
theorem Maps.text_infix {source : Text} {offset : Nat} {root : Node} (maps : Maps source offset root) :
    ∀ node ∈ root.all, node.text <:+: source := by
  have down : ∀ {node : Node}, (∃ start, Maps source start node) →
      ∀ child ∈ node.children, ∃ start, Maps source start child := by
    rintro node ⟨_, ⟨_, children, _⟩⟩
    exact exists_maps_of_forall₂ children
  intro node member
  obtain ⟨_, ⟨⟨before, after, whole, -⟩, _⟩⟩ :=
    @Node.forall_mem_all (fun node => ∃ start, Maps source start node) root ⟨offset, maps⟩ down node member
  exact ⟨before, after, whole.symm⟩

theorem Source.text_infix_of_parse (source : Text) : ∀ node ∈ (parse source).all, node.text <:+: source := by
  obtain ⟨runs, -⟩ := joinErrors_runs (spans_runs (source.length + 1) [] (Cursor.start source))
  obtain ⟨text, moves, placed⟩ := runs.placed
  have stands : StandsAt source 0 1 ([] ++ text) := ⟨[], _, moves.rest, rfl, rfl⟩
  have nothing : MayFollow none [] := rfl
  obtain ⟨starts, maps, -⟩ := placed nothing rfl stands
  intro node member
  rcases Node.mem_all.1 member with rfl | ⟨child, listed, inside⟩
  · exact List.infix_rfl
  · obtain ⟨_, own⟩ := exists_maps_of_forall₂ maps child listed
    exact own.text_infix node inside

namespace Render

theorem alike_parse {source : Text} (clean : '\r' ∉ source) (depth : Nat) (context : Context) :
    Alike Text.SameLines ((Source.parse source).render depth context)
      ((Source.parse (Text.endLines ['\r'] source)).render depth context) := by
  have spaces : ∀ c ∈ ['\r'], Text.isSpace c = true := List.forall_mem_singleton.2 rfl
  obtain ⟨text, children, same, -, below⟩ := (Source.parse_like spaces source).of_branch
  have plain : ∀ inner ∈ (Source.parse source).all, '\r' ∉ inner.text := fun inner member inside =>
    clean ((Source.text_infix_of_parse source inner member).subset inside)
  rw [same]
  -- The text of the unit itself is not rendered, only its statements are.
  have statements : ∀ inner : Option (Context → Node → Render Text),
      Alike Text.SameLines ((Source.parse source).plan context (inclusion inner context)).text
        ((Node.branch .sourceFile 1 text children).plan context (inclusion inner context)).text := by
    intro inner
    rw [Node.plan_text, Node.plan_text]
    exact alike_lines (forall₂_plan below fun child member other like =>
      rendersAlike (fun _ _ _ _ => rfl) (Source.shape_of_parse source child member) like
        (clean_child plain member))
  cases depth with
  | zero => exact statements none
  | succ depth => exact statements (some (Node.render depth))

end Render

namespace Compile

theorem tree_alike {context : Context} {root other : Node} {environment : Environment}
    (prelude : context.settings.prelude = true)
    (alike : Render.Alike Text.SameLines (root.render context.settings.maxIncludeDepth context)
      (other.render context.settings.maxIncludeDepth context)) :
    tree context other environment = tree context root environment := by
  have ran := alike { environment, notes := (seeds environment).notes }
  unfold tree
  cases done : root.render context.settings.maxIncludeDepth context
      { environment, notes := (seeds environment).notes } <;>
    cases done' : other.render context.settings.maxIncludeDepth context
      { environment, notes := (seeds environment).notes } <;>
    rw [done, done'] at ran <;> cases ran
  -- All that is rendered is laid out in a block of the program.
  · next same =>
    simp only [done, done', prelude, if_true, Zig.program_sameLines same]
  · simp only [done, done']

/-- Line ends do not matter. A source without carriage returns compiles as it does with one in front of
every line feed: to the same fault, or to the same program, warnings and environment. The included units
are read as they are. -/
theorem source_endLines (load : Loader) (settings : Settings) (process : ProcessEnvironment)
    (source : Text) (environment : Environment) (clean : '\r' ∉ source)
    (prelude : settings.prelude = true) :
    Compile.source (standard load settings process) (Text.endLines ['\r'] source) environment =
      Compile.source (standard load settings process) source environment :=
  tree_alike prelude (Render.alike_parse clean settings.maxIncludeDepth _)

/-- An included unit, spans that are not read in a block and behind a rule, and a command under a warning. -/
def scatteredUnit : Text :=
  Text.joinWith ['\n'] <| List.map String.toList
    ["%include parts.mk", "%ifdef ROOT", "?? one", "two ", "%else", "ROOT = $[PART] ", "%endif", ".all:",
      "  ~note $[ROOT]", "", "???"]

/-- The included unit has line ends of its own. -/
def partsContext : Context :=
  standard (fun path =>
    if path = "parts.mk".toList then .ok "PART = a\r\n?".toList else .error .notFound) {} []

theorem scatteredUnit_endLines :
    '\r' ∉ scatteredUnit ∧ partsContext.settings.prelude = true ∧
      (Source.parse (Text.endLines ['\r'] scatteredUnit)).children.map (·.text) ≠
        (Source.parse scatteredUnit).children.map (·.text) ∧
      Compile.source partsContext (Text.endLines ['\r'] scatteredUnit) {} =
        Compile.source partsContext scatteredUnit {} := by
  have clean : '\r' ∉ scatteredUnit := by decide
  refine ⟨clean, rfl, by decide +kernel, ?_⟩
  exact source_endLines _ _ _ scatteredUnit {} clean rfl

end Compile

end BmakeZig
