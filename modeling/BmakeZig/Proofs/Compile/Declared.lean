import BmakeZig.Proofs.Compile.Foresight
import BmakeZig.Proofs.Compile.Quiet
import BmakeZig.Proofs.Text.Sorted
import BmakeZig.Units.Library

/-! The program declares what it uses. The names that are bound only grow in number over a pass, every
live name is among them, and each statement adds the one it writes; so the names that are bound in the
end are those that were bound at the start and those written on the way, and every variable that a
statement reads or writes is one of them. -/
namespace BmakeZig

theorem Environment.Built.increasing {environment : Environment} (built : environment.Built) :
    Text.Increasing environment.bound := by
  induction built with
  | empty => exact List.Pairwise.nil
  | assign built name value ih => exact ih.insertSorted name
  | append built name value separator ih => exact ih.insertSorted name
  | undefine built name ih => exact ih.insertSorted name

/-- How a pass changes over statements that write some names, and register a step of the build or
not. -/
structure Pass.Grows (written : Text → Prop) (registered : Prop) (before after : Pass) : Prop where
  built : before.environment.Built → after.environment.Built
  bound : ∀ name ∈ before.environment.bound, name ∈ after.environment.bound
  added : ∀ name ∈ after.environment.bound, name ∈ before.environment.bound ∨ written name
  held : ∀ name, ¬written name → after.environment.get? name = before.environment.get? name
  uses : before.usesBuilder = true → after.usesBuilder = true
  needed : after.usesBuilder = true → before.usesBuilder = true ∨ registered

namespace Pass.Grows

variable {written : Text → Prop} {registered : Prop} {first second third before after : Pass}

theorem of_same (environment : after.environment = before.environment)
    (usesBuilder : after.usesBuilder = before.usesBuilder) :
    Grows written registered before after := by
  constructor
  · rw [environment]
    exact id
  · rw [environment]
    exact fun _ => id
  · rw [environment]
    exact fun _ => .inl
  · rw [environment]
    exact fun _ _ => rfl
  · rw [usesBuilder]
    exact id
  · rw [usesBuilder]
    exact .inl

theorem trans (one : Grows written registered first second)
    (two : Grows written registered second third) : Grows written registered first third where
  built start := two.built (one.built start)
  bound name member := two.bound name (one.bound name member)
  added name member := (two.added name member).elim (one.added name) .inr
  held name apart := (two.held name apart).trans (one.held name apart)
  uses start := two.uses (one.uses start)
  needed used := (two.needed used).elim one.needed .inr

/-- The environment is changed at one name. -/
theorem of_bind {name : Text} {environment : Environment} (target : written name)
    (built : before.environment.Built → environment.Built)
    (bound : environment.bound = Text.insertSorted name before.environment.bound)
    (held : ∀ other, other ≠ name → environment.get? other = before.environment.get? other) :
    Grows written registered before { before with environment } where
  built := built
  bound other member := by
    simp only [bound]
    exact Text.mem_insertSorted.2 (.inr member)
  added other member := by
    simp only [bound] at member
    rcases Text.mem_insertSorted.1 member with rfl | old
    · exact .inr target
    · exact .inl old
  held other apart := held other fun same => apart (same ▸ target)
  uses := id
  needed := .inl

theorem of_changes {context : Context} {node : Node} (changes : node.Changes context before after)
    (writes : ∀ name ∈ node.writes, written name) (registers : node.registers = true → registered) :
    Grows written registered before after := by
  cases changes with
  | nothing | search => exact of_same rfl rfl
  | step silent found =>
    have same : Grows written registered before before := of_same rfl rfl
    exact { same with uses := fun _ => rfl, needed := fun _ => .inr (registers found) }
  | @undef target kind aimed =>
    have own : target.text ∈ node.writes := by simp [Node.writes, kind, aimed]
    refine of_bind (writes _ own) (fun start => start.undefine _) rfl fun other apart => ?_
    rw [Environment.get?_undefine, if_neg apart]
  | @assignment appends expands target kept middle kind aimed found =>
    have own : target.text ∈ node.writes := by simp [Node.writes, kind, aimed]
    unfold Render.assigned
    split
    · refine of_bind (writes _ own) (fun start => start.append _ _ _) rfl fun other apart => ?_
      rw [Environment.append, Environment.get?_assign, if_neg apart]
    · refine of_bind (writes _ own) (fun start => start.assign _ _) rfl fun other apart => ?_
      rw [Environment.get?_assign, if_neg apart]

end Pass.Grows

/-- A statement binds what it writes, and one that registers a step is remembered. -/
theorem Node.Changes.leaves {context : Context} {node : Node} {before after : Pass}
    (changes : node.Changes context before after) :
    (∀ name ∈ node.writes, name ∈ after.environment.bound) ∧
      (node.registers = true → after.usesBuilder = true) := by
  cases changes with
  | nothing silent idle => simp [silent, idle]
  | step silent registers => simp [silent]
  | search kind => simp [Node.writes, Node.registers, kind]
  | undef kind aimed =>
    simp [Node.writes, Node.registers, kind, aimed, Environment.undefine, Text.mem_insertSorted]
  | @assignment appends _ _ _ _ kind aimed =>
    have bound (environment : Environment) (name value : Text) :
        name ∈ (environment.assign name value).bound :=
      Text.mem_insertSorted.2 (.inl rfl)
    cases appends <;>
      simp [Node.writes, Node.registers, kind, aimed, Render.assigned, Environment.append, bound]

namespace Moment

variable {start moment : Moment} {text : Text} {after : Pass}

/-- Some statement of the run writes the name. -/
def Writes (start : Moment) (name : Text) : Prop :=
  ∃ moment, Reaches start moment ∧ name ∈ moment.node.writes

/-- Some rule of the run registers a step of the build. -/
def Registers (start : Moment) : Prop :=
  ∃ moment, Reaches start moment ∧ moment.node.registers = true

theorem steady_grows (start : Moment) : Steady start (Pass.Grows start.Writes start.Registers) := by
  apply Steady.of_changes
  · exact fun calm => .of_same calm.environment calm.usesBuilder
  · exact .trans
  · intro moment before changed reached changes
    exact .of_changes changes (fun name own => ⟨moment, reached, own⟩) fun own => ⟨moment, reached, own⟩

theorem leaves_of_run (ran : moment.run = .ok text after) :
    (∀ name ∈ moment.node.writes, name ∈ after.environment.bound) ∧
      (moment.node.registers = true → after.usesBuilder = true) := by
  rcases of_run_ok ran with ⟨other, said, middle, _, second⟩ | ⟨includes, _⟩
  · obtain ⟨changed, changes, calm⟩ := Node.changes_of_finish other second
    rw [calm.environment, calm.usesBuilder]
    exact changes.leaves
  · simp [Node.writes, Node.registers, includes]

section

variable (ran : start.run = .ok text after)

include ran

theorem mem_bound_iff (name : Text) : name ∈ after.environment.bound ↔
    name ∈ start.pass.environment.bound ∨ start.Writes name := by
  have grows := (steady_grows start).run .refl ran
  constructor
  · exact grows.added name
  · rintro (old | ⟨moment, reached, own⟩)
    · exact grows.bound name old
    · obtain ⟨said, last, called, later⟩ := (steady_grows start).onward ran reached
      exact later.bound name ((leaves_of_run called).1 name own)

theorem usesBuilder_iff : after.usesBuilder = true ↔
    start.pass.usesBuilder = true ∨ start.Registers := by
  have grows := (steady_grows start).run .refl ran
  constructor
  · exact grows.needed
  · rintro (old | ⟨moment, reached, own⟩)
    · exact grows.uses old
    · obtain ⟨said, last, called, later⟩ := (steady_grows start).onward ran reached
      exact later.uses ((leaves_of_run called).2 own)

/-- What is bound when a moment is reached is bound in the end, and so is what is live. -/
theorem mem_bound_of_live (built : start.pass.environment.Built) (reached : Reaches start moment)
    {name : Text} (live : moment.pass.environment.contains name = true) :
    name ∈ after.environment.bound := by
  obtain ⟨said, last, called, later⟩ := (steady_grows start).onward ran reached
  have known := ((steady_grows start).upTo reached).built built
  have own := (steady_grows start).run reached called
  exact later.bound name (own.bound name (known.mem_bound name live))

theorem supplied_bound (built : start.pass.environment.Built) :
    Supplied start after.environment.bound where
  live := by
    intro moment said middle reached first name live
    obtain ⟨_, last, called, later⟩ := (steady_grows start).onward ran reached
    obtain ⟨front, back⟩ := (steady_grows start).between reached first called
    have known := front.built (((steady_grows start).upTo reached).built built)
    exact later.bound name (back.bound name (known.mem_bound name live))
  targets := by
    intro moment reached name own
    exact (mem_bound_iff ran name).2 (.inr ⟨moment, reached, own⟩)

end

end Moment

namespace Compile

variable {environment : Environment}

/-- The value that a variable of the environment starts with: its full expansion, if it is live. -/
def initial (environment : Environment) (name : Text) : Text :=
  ((environment.expand? name).map (·.value)).getD []

theorem declarations_eq (built : environment.Built) (final : Environment) :
    declarations (seeds environment).value final =
      final.bound.map fun name => (name, initial environment name) := by
  unfold declarations
  apply List.map_congr_left
  intro name _
  rw [seeds_value, Table.get?_map]
  split
  · rfl
  · next unbound =>
    have dead : ¬environment.contains name = true := fun live => unbound (built.mem_bound name live)
    rw [initial, Environment.expand?, if_neg dead]
    rfl

/-- What the program that a run assembles declares and uses. -/
structure Declares (first : Moment) (environment : Environment) (compiled : Compiled)
    (names : List Text) (body statements : Text) : Prop where
  /-- The declarations stand in one block of the program and the statements in another. -/
  output : compiled.output = Zig.header ++ "\n\nconst vars = struct ".toList ++
    Zig.block (Text.joinWith ['\n'] (names.map fun name => "pub var ".toList ++ Zig.identifier name ++
      ": []const u8 = ".toList ++ Zig.literal (initial environment name) ++ ";".toList)) ++
    ";\n\n".toList ++ Zig.runHelper ++ "\n\npub fn build(b: *std.Build) !void ".toList ++
    Zig.block statements ++ "\n".toList
  /-- The body is what the run renders; the argument is discarded where nothing registers a step. -/
  runs : ∃ pass, first.run = .ok body pass
  discards : statements = "_ = b;\n".toList ++ body ∧ ¬first.Registers ∨
    statements = body ∧ first.Registers
  /-- At every moment what is live is declared. -/
  live : ∀ moment, first.Reaches moment →
    ∀ name, moment.pass.environment.contains name = true → name ∈ names
  /-- Every moment weaves in variables that are declared, beside what the moments it calls have woven and
  what it passes on of the unit, of a folder or of a place. -/
  woven : ∀ moment text after, first.Reaches moment → moment.run = .ok text after →
    Zig.Woven (moment.threads names) false text
  /-- So the text of a moment, and the body with it, accesses variables that are declared and no others,
  unless there is an access to be read in what is passed on from there. -/
  accesses : ∀ moment text after, first.Reaches moment → moment.run = .ok text after →
    (∀ later passed, moment.Reaches later → later.Copies passed → Zig.isQuiet passed = true) →
    ∀ name ∈ Zig.accesses text, name ∈ names
  declared : ∀ name, name ∈ names ↔ name ∈ environment.bound ∨ first.Writes name
  distinct : names.Nodup
  spellings : (names.map Zig.identifier).Nodup
  held : ∀ name, ¬first.Writes name → compiled.environment.get? name = environment.get? name

/-- With the prelude, in every pass that succeeds: whatever the reader, the units and the settings, the
program declares the names that were bound and those that are written, each once, and accesses no
others. -/
theorem program_declares (parse : Text → Node) (load : Loader) (settings : Settings)
    (process : ProcessEnvironment) (origin : Option Text) (root : Node) (environment : Environment)
    (compiled : Compiled) (wrapped : settings.prelude = true) (built : environment.Built)
    (result : (tree (around parse load settings process origin) root environment).result =
      .ok compiled) :
    ∃ names body statements,
      Declares (start (around parse load settings process origin) root environment) environment
        compiled names body statements := by
  obtain ⟨body, pass, rendered, ending, output⟩ := tree_ok result
  have ran : (start (around parse load settings process origin) root environment).run =
      .ok body pass := (run_start rfl).trans rendered
  have grows := (Moment.steady_grows _).run .refl ran
  have increasing := (grows.built built).increasing
  have supplied := Moment.supplied_bound ran built
  have registers := Moment.usesBuilder_iff ran
  refine ⟨pass.environment.bound, body, if pass.usesBuilder then body else "_ = b;\n".toList ++ body,
    ?_⟩
  constructor
  case output =>
    have script : compiled.output = Zig.program body
        (pass.environment.bound.map fun name => (name, initial environment name)) pass.usesBuilder := by
      rw [← declarations_eq built]
      exact output.trans (if_pos wrapped)
    rw [script, Zig.program, List.map_map]
    rfl
  case runs => exact ⟨pass, ran⟩
  case discards =>
    by_cases uses : pass.usesBuilder = true
    · refine .inr ⟨if_pos uses, ?_⟩
      exact (registers.1 uses).resolve_left (by simp [start])
    · exact .inl ⟨if_neg uses, fun registered => uses (registers.2 (.inr registered))⟩
  case live => exact fun moment reached name => Moment.mem_bound_of_live ran built reached
  case woven => exact fun moment text after reached => supplied.woven reached
  case accesses =>
    intro moment text after reached ran quiet
    exact (supplied.confined reached ran quiet).alone
  case declared => exact Moment.mem_bound_iff ran
  case distinct => exact increasing.nodup
  case spellings => exact increasing.nodup.map Zig.identifier_injective
  case held =>
    intro name apart
    rw [ending]
    exact grows.held name apart

/-- Among texts of one line, the body of a unit that was read from a source accesses variables that are
declared and no others. -/
theorem Declares.accesses_of_source {load : Loader} {settings : Settings} {process : ProcessEnvironment}
    {origin : Option Text} {source : Text} {environment : Environment} {compiled : Compiled}
    {names : List Text} {body statements : Text}
    (declares : Declares (start (around Source.parse load settings process origin)
      (Source.parse source) environment) environment compiled names body statements)
    (directories : ∀ directory ∈ settings.includeDirs, '\n' ∉ directory)
    (separator : '\n' ∉ settings.appendSeparator) (ambient : process.OneLine)
    (place : ∀ text ∈ origin, '\n' ∉ text) (values : environment.OneLine) :
    ∀ name ∈ Zig.accesses body, name ∈ names := by
  obtain ⟨pass, ran⟩ := declares.runs
  apply declares.accesses _ body pass .refl ran
  exact quiet_of_source directories separator ambient place values source

/-- Variables that are seeded, assigned, appended to, undefined and written next door, and a rule; with
a name, a folder, a comment and a command that are passed on. -/
def crossUnit : Text :=
  Text.joinWith ['\n'] <| List.map String.toList
    ["# vars.NONE", "CC = $(HOST)-cc", "%search $(HOST)/include", "%include near", "%ifdef DEBUG",
      "CC += $[FLAGS]", "%endif", "%if READY", ".app:", "\t$(CC) $\x7bSRC\x7dapp.c", "\t~what vars.NONE",
      "%endif", "%undef OLD"]

def crossLibrary : Library :=
  Library.ofFiles [("near".toList, "FLAGS + $(HOST)".toList)]

def crossEnvironment : Environment :=
  ((Environment.assign {} "HOST".toList "$(ARCH)-".toList).append "HOST".toList "linux".toList
    []).undefine "SRC".toList

def cross : Moment :=
  start (around Source.parse crossLibrary.load {} [] (some "cross".toList)) (Source.parse crossUnit)
    crossEnvironment

theorem crossUnit_declares : ({} : Settings).prelude = true ∧ crossEnvironment.Built ∧
    ∃ compiled, (tree cross.context cross.node crossEnvironment).result = .ok compiled ∧
      ∃ names body statements, Declares cross crossEnvironment compiled names body statements ∧
        (∀ name ∈ Zig.accesses body, name ∈ names) ∧ Zig.accesses body =
          ["CC", "HOST", "FLAGS", "HOST", "CC", "CC", "HOST", "CC", "OLD"].map String.toList := by
  have built : crossEnvironment.Built := .undefine (.append (.assign .empty _ _) _ _ _) _
  have values : crossEnvironment.OneLine := by
    apply Environment.OneLine.undefine
    apply Environment.OneLine.append _ _ (by decide) (by decide)
    apply Environment.OneLine.assign _ _ (by decide)
    intro name value found
    cases found
  have ambient : ProcessEnvironment.OneLine [] := by
    intro name value found
    simp [ProcessEnvironment.get?] at found
  have compiles : (tree cross.context cross.node crossEnvironment).result.isOk = true := by
    decide +kernel
  have met : cross.outcome?.map (fun said => Zig.accesses said.1) =
      some (["CC", "HOST", "FLAGS", "HOST", "CC", "CC", "HOST", "CC", "OLD"].map String.toList) := by
    decide +kernel
  refine ⟨rfl, built, ?_⟩
  cases result : (tree cross.context cross.node crossEnvironment).result with
  | error fault =>
    rw [result] at compiles
    cases compiles
  | ok compiled =>
    obtain ⟨names, body, statements, declares⟩ :=
      program_declares _ _ _ _ (some "cross".toList) _ _ compiled rfl built result
    obtain ⟨pass, ran⟩ : ∃ pass, cross.run = .ok body pass := declares.runs
    refine ⟨compiled, rfl, names, body, statements, declares, ?_, ?_⟩
    · exact declares.accesses_of_source (by simp) (by decide) ambient (by decide) values
    · unfold Moment.outcome? at met
      rw [ran] at met
      exact Option.some.inj met

end Compile

end BmakeZig
