import BmakeZig.Proofs.Render.Moment

/-! What the second phase of a rule can do, said once for all rules: it leaves alone what later
statements read of the pass, or it changes one thing, which its node names. It fails over its own
node and for no other cause, and whatever it does, it only adds to the warnings and the notes and
never reads them. -/
namespace BmakeZig

/-- The passes agree on all that later statements read. -/
structure Pass.Calm (before after : Pass) : Prop where
  environment : after.environment = before.environment
  searchDirs : after.searchDirs = before.searchDirs
  usesBuilder : after.usesBuilder = before.usesBuilder

/-- The pass with more in front of its records. -/
def Pass.behind (warnings : List Warning) (notes : List Note) (pass : Pass) : Pass :=
  { pass with warnings := warnings ++ pass.warnings, notes := notes ++ pass.notes }

/-- A fault about the form of one node, as opposed to one about units. -/
def Fault.isLocal : Fault → Bool
  | .unknownKind .. | .unknownMarker .. | .malformed .. => true
  | _ => false

namespace Pass.Calm

variable {first second third : Pass}

theorem refl (pass : Pass) : pass.Calm pass :=
  ⟨rfl, rfl, rfl⟩

theorem trans (one : first.Calm second) (two : second.Calm third) : first.Calm third :=
  ⟨two.environment.trans one.environment, two.searchDirs.trans one.searchDirs,
    two.usesBuilder.trans one.usesBuilder⟩

end Pass.Calm

namespace Render

variable {α β : Type} {context : Context} {node : Node} {before after : Pass} {text : Text}

/-- What came of an action, with more in front of the records of its pass. -/
def behind (warnings : List Warning) (notes : List Note) :
    EStateM.Result Fault Pass α → EStateM.Result Fault Pass α
  | .ok value pass => .ok value (pass.behind warnings notes)
  | .error fault pass => .error fault (pass.behind warnings notes)

/-- The action adds to the records of the pass and never reads them. -/
def Unread (action : Render α) : Prop :=
  ∀ warnings notes pass,
    action (pass.behind warnings notes) = behind warnings notes (action pass)

theorem Unread.bind {action : Render α} {next : α → Render β} (first : Unread action)
    (second : ∀ value, Unread (next value)) : Unread (action >>= next) := by
  intro warnings notes pass
  have moved := first warnings notes pass
  cases ran : action pass with
  | ok value after =>
    rw [ran] at moved
    rw [bind_ok moved, bind_ok ran]
    exact second value warnings notes after
  | error fault after =>
    rw [ran] at moved
    rw [bind_error moved, bind_error ran]
    rfl

theorem unread_pure (value : α) : Unread (pure value) :=
  fun _ _ _ => rfl

theorem unread_throw (fault : Fault) : Unread (throw fault : Render α) :=
  fun _ _ _ => rfl

theorem unread_modify {change : Pass → Pass}
    (apart : ∀ warnings notes pass,
      change (pass.behind warnings notes) = (change pass).behind warnings notes) :
    Unread (modify change : Render Unit) :=
  fun warnings notes pass => congrArg (EStateM.Result.ok ()) (apart warnings notes pass)

theorem unread_environment : Unread environment :=
  fun _ _ _ => rfl

theorem unread_note (note : Note) : Unread (Render.note note) :=
  unread_modify fun _ _ _ => by simp only [Pass.behind, List.append_assoc]

/-- The action changes nothing that later statements read, fails with local faults only, and does not
read the records of the pass. -/
structure Modest (action : Render α) : Prop where
  calm : ∀ pass, match action pass with
    | .ok _ after => pass.Calm after
    | .error fault _ => fault.isLocal = true
  unread : Unread action

namespace Modest

theorem ok {action : Render α} {value : α} (modest : Modest action)
    (ran : action before = .ok value after) : before.Calm after := by
  simpa only [ran] using modest.calm before

theorem error {action : Render α} {fault : Fault} (modest : Modest action)
    (ran : action before = .error fault after) : fault.isLocal = true := by
  simpa only [ran] using modest.calm before

theorem bind {action : Render α} {next : α → Render β} (first : Modest action)
    (second : ∀ value, Modest (next value)) : Modest (action >>= next) := by
  refine ⟨fun pass => ?_, first.unread.bind fun value => (second value).unread⟩
  cases ran : (action >>= next) pass with
  | ok value after =>
    obtain ⟨found, middle, one, two⟩ := of_bind_ok ran
    exact (first.ok one).trans ((second found).ok two)
  | error fault after =>
    rcases of_bind_error ran with failed | ⟨found, middle, _, failed⟩
    · exact first.error failed
    · exact (second found).error failed

end Modest

theorem modest_pure (value : α) : Modest (pure value) :=
  ⟨fun pass => .refl pass, unread_pure value⟩

theorem modest_throw {fault : Fault} (own : fault.isLocal = true) : Modest (throw fault : Render α) :=
  ⟨fun _ => own, unread_throw fault⟩

theorem modest_noted (noted : Noted α) : Modest (Render.noted noted) where
  calm _ := ⟨rfl, rfl, rfl⟩
  unread := by
    refine (unread_modify fun _ _ _ => ?_).bind fun _ => unread_pure noted.value
    simp only [Pass.behind, List.append_assoc]

theorem modest_warn (line : Nat) (message : Text) : Modest (warn line message) where
  calm _ := ⟨rfl, rfl, rfl⟩
  unread := by
    refine (unread_note _).bind fun _ => unread_modify fun _ _ _ => ?_
    simp only [Pass.behind, List.append_assoc]

theorem modest_environment : Modest environment :=
  ⟨fun _ => ⟨rfl, rfl, rfl⟩, unread_environment⟩

theorem modest_require (node : Node) (expected : String) (found : Option α) :
    Modest (require node expected found) := by
  cases found with
  | none => exact modest_throw rfl
  | some value => exact modest_pure value

theorem modest_verbatim (node : Node) : Modest (verbatim node) :=
  (modest_warn _ _).bind fun _ => modest_pure _

/-! Values. -/

theorem modest_reference (node : Node) (mode : Mode) : Modest (reference node mode) := by
  unfold reference
  split
  · exact modest_throw rfl
  · exact (modest_require _ _ _).bind fun _ => modest_pure _

theorem modest_childFragments (child : Node) : Modest (childFragments child) := by
  unfold childFragments
  split
  · exact modest_pure _
  · exact (modest_reference child _).bind fun _ => modest_pure _
  · split
    · exact modest_throw rfl
    · exact (modest_verbatim child).bind fun _ => modest_pure _

theorem modest_collect (nodes : List Node) : Modest (collect nodes) := by
  induction nodes with
  | nil => exact modest_pure _
  | cons child rest ih =>
    exact (modest_childFragments child).bind fun _ => ih.bind fun _ => modest_pure _

theorem modest_writtenFragments (node : Node) : Modest (writtenFragments node) := by
  unfold writtenFragments
  split
  · exact (modest_reference node _).bind fun _ => modest_pure _
  · split
    · exact modest_pure _
    · exact modest_collect _

theorem modest_fragments (node : Node) : Modest (fragments node) :=
  (modest_writtenFragments node).bind fun _ => modest_environment.bind fun _ => modest_noted _

theorem modest_value (node : Node) : Modest (value node) :=
  (modest_fragments node).bind fun _ => modest_environment.bind fun _ => modest_pure _

theorem modest_staticPath (context : Context) (path : Node) : Modest (staticPath context path) :=
  (modest_fragments path).bind fun _ => modest_environment.bind fun _ => modest_noted _

/-! Rules that change nothing. -/

theorem modest_closeClauses (node : Node) (branches : List Node) (said : List Text) :
    Modest (closeClauses node branches said) := by
  induction branches generalizing said with
  | nil => exact modest_pure _
  | cons branch rest ih =>
    unfold closeClauses
    split
    · refine (modest_require _ _ _).bind fun _ => (modest_require _ _ _).bind fun _ => ?_
      exact (ih _).bind fun _ => modest_pure _
    · refine (modest_require _ _ _).bind fun _ => ?_
      exact (ih _).bind fun _ => modest_pure _
    · exact modest_throw rfl

theorem modest_closeConditional (node : Node) (said : List Text) :
    Modest (closeConditional node said) := by
  refine (modest_require _ _ _).bind fun _ => (modest_require _ _ _).bind fun _ => ?_
  exact (modest_closeClauses _ _ _).bind fun _ => modest_pure _

theorem modest_closeOperands (node : Node) (join : Kind × Text → Kind × Text → Text)
    (said : List Text) : Modest (closeOperands node join said) :=
  (modest_require _ _ _).bind fun _ => (modest_require _ _ _).bind fun _ => modest_pure _

theorem modest_closeDiagnostic (node : Node) (message : Text) :
    Modest (closeDiagnostic node message) := by
  refine (modest_require _ _ _).bind fun marker => ?_
  unfold diagnose
  cases Marker.ofDirective? marker.text with
  | some known => exact modest_pure _
  | none => exact modest_throw rfl

theorem modest_closeCommand (node : Node) (command : Text) : Modest (closeCommand node command) := by
  unfold closeCommand
  split
  · exact modest_pure _
  · split
    · exact modest_pure _
    · exact (modest_warn _ _).bind fun _ => modest_pure _

theorem modest_isDefined (node : Node) : Modest (isDefined node) :=
  (modest_require _ _ _).bind fun _ => modest_pure _

/-! Assignments. -/

/-- The fragments of the value that an assignment writes. -/
def valueFragments (node : Node) : Render (List Fragment) :=
  match node.namedChild? 1 with
  | some value => fragments value
  | none => pure []

/-- The fragments that an assignment on `line` keeps of those written in it. -/
def kept (environment : Environment) (line : Nat) (expands : Bool) (written : List Fragment) :
    List Fragment :=
  if expands then (Noted.each (Fragment.freeze environment line) written).value else written

/-- The part of an assignment that changes the environment. -/
def store (settings : Settings) (name : Text) (line : Nat) (appends expands : Bool)
    (written : List Fragment) : Render Text := do
  let kept ← if expands then
      noted (Noted.each (Fragment.freeze (← environment) line) written)
    else pure written
  let value := Fragment.expression (← environment) kept
  let stored := Fragment.toText kept
  if appends then
    let previous := (← environment).get? name
    append name stored settings.appendSeparator
    match previous with
    | none => return Zig.set name value
    | some previous => return appendStatement name previous stored settings.appendSeparator value
  else
    assign name stored
    return Zig.set name value

theorem assignment_eq (settings : Settings) (node : Node) (appends expands : Bool) :
    assignment settings node appends expands =
      require node "variable name" (node.find? .identifier) >>= fun name =>
        valueFragments node >>= store settings name.text node.line appends expands := by
  unfold assignment valueFragments store
  cases node.namedChild? 1 <;> rfl

theorem store_ok (settings : Settings) (name : Text) (line : Nat) (appends expands : Bool)
    (written : List Fragment) (pass : Pass) :
    ∃ notes, store settings name line appends expands written pass =
      .ok (assignmentText settings pass.environment name appends
          (kept pass.environment line expands written))
        { pass with
          environment := assigned settings pass.environment name appends
            (kept pass.environment line expands written)
          notes } := by
  cases appends with
  | false => cases expands <;> exact ⟨_, rfl⟩
  | true =>
    cases expands with
    | false => exact append_ok settings name written pass
    | true =>
      exact append_ok settings name (kept pass.environment line true written) { pass with notes := _ }

theorem modest_valueFragments (node : Node) : Modest (valueFragments node) := by
  unfold valueFragments
  split
  · exact modest_fragments _
  · exact modest_pure _

end Render

/-! One change at most. -/

/-- Whether the rule for nodes of a kind may change more than notes and warnings. -/
def Kind.isActive : Kind → Bool
  | .assignment .. | .undef | .search | .rule | .inclusion => true
  | _ => false

namespace Node

/-- Whether a rule registers a step of the build. -/
def registers (node : Node) : Bool :=
  node.kind = .rule && (node.namedChild? 0).any fun target => target.kind = .targetDecl

/-- What the rule of a node can make of the pass, notes and warnings aside. -/
inductive Changes (context : Context) (node : Node) (before : Pass) : Pass → Prop where
  | nothing (silent : node.writes = []) (idle : node.registers = false) :
      Changes context node before before
  | assignment {appends expands : Bool} {target : Node} {written : List Fragment} {middle : Pass}
      (kind : node.kind = .assignment appends expands)
      (aimed : node.find? .identifier = some target)
      (found : Render.valueFragments node before = .ok written middle) :
      Changes context node before
        { before with
          environment := Render.assigned context.settings before.environment target.text appends
            (Render.kept before.environment node.line expands written) }
  | undef {target : Node} (kind : node.kind = .undef) (aimed : node.find? .identifier = some target) :
      Changes context node before
        { before with environment := before.environment.undefine target.text }
  | search (kind : node.kind = .search) (directory : Text) :
      Changes context node before
        { before with searchDirs := before.searchDirs ++ [Path.ofText directory] }
  | step (silent : node.writes = []) (registers : node.registers = true) :
      Changes context node before { before with usesBuilder := true }

/-- The action makes one of the changes that the node asks for, or fails over the node. -/
def Performs (context : Context) (node : Node) (action : Render Text) : Prop :=
  ∀ before, match action before with
    | .ok _ after => ∃ changed, node.Changes context before changed ∧ changed.Calm after
    | .error fault _ => fault.isLocal = true

variable {context : Context} {node : Node} {action : Render Text}

theorem performs_of_modest (modest : Render.Modest action) (silent : node.writes = [])
    (idle : node.registers = false) : node.Performs context action := by
  intro before
  have kept := modest.calm before
  split
  · next ran =>
    rw [ran] at kept
    exact ⟨before, .nothing silent idle, kept⟩
  · next ran =>
    rw [ran] at kept
    exact kept

theorem performs_assignment {appends expands : Bool} (kind : node.kind = .assignment appends expands) :
    node.Performs context (Render.assignment context.settings node appends expands) := by
  intro before
  rw [Render.assignment_eq]
  cases aimed : node.find? .identifier with
  | none => rfl
  | some target =>
    rw [Render.require_some, pure_bind]
    cases found : Render.valueFragments node before with
    | error fault after =>
      rw [Render.bind_error found]
      exact (Render.modest_valueFragments node).error found
    | ok written middle =>
      have calm := (Render.modest_valueFragments node).ok found
      obtain ⟨notes, ran⟩ := Render.store_ok context.settings target.text node.line appends expands
        written middle
      rw [Render.bind_ok found, ran]
      refine ⟨_, .assignment kind aimed found, ?_⟩
      rw [calm.environment]
      exact ⟨rfl, calm.searchDirs, calm.usesBuilder⟩

theorem performs_undef (kind : node.kind = .undef) : node.Performs context (Render.undef node) := by
  intro before
  unfold Render.undef
  cases aimed : node.find? .identifier with
  | none => rfl
  | some target => exact ⟨_, .undef kind aimed, .refl _⟩

theorem performs_search (kind : node.kind = .search) :
    node.Performs context (Render.search context node) := by
  intro before
  unfold Render.search
  cases node.find? .path with
  | none => rfl
  | some path =>
    rw [Render.require_some, pure_bind]
    cases ran : Render.staticPath context path before with
    | error fault after =>
      rw [Render.bind_error ran]
      exact (Render.modest_staticPath context path).error ran
    | ok directory middle =>
      have calm := (Render.modest_staticPath context path).ok ran
      rw [Render.bind_ok ran]
      refine ⟨_, .search kind directory, calm.environment, ?_, calm.usesBuilder⟩
      rw [← calm.searchDirs]

theorem performs_closeRule (kind : node.kind = .rule) (body : Text) :
    node.Performs context (Render.closeRule node body) := by
  have silent : node.writes = [] := by simp only [writes, kind]
  intro before
  unfold Render.closeRule
  cases first : node.namedChild? 0 with
  | none => rfl
  | some target =>
    rw [Render.require_some, pure_bind]
    by_cases declared : target.kind = .targetDecl
    · have registers : node.registers = true := by simp [Node.registers, kind, first, declared]
      simp only [Render.aimed, declared]
      exact ⟨_, .step silent registers, .refl _⟩
    · have idle : node.registers = false := by simp [Node.registers, first, declared]
      have modest : Render.Modest (Render.aimed target body) := by
        unfold Render.aimed
        split
        · exact Render.modest_pure _
        · next same => exact absurd same declared
        · exact Render.modest_throw rfl
      exact performs_of_modest modest silent idle before

theorem modest_finish (still : node.kind.isActive = false) (said : List Text) :
    Render.Modest (node.finish context said) := by
  unfold finish
  cases kind : node.kind with
  | assignment | undef | search | rule | inclusion => simp [kind, Kind.isActive] at still
  | sourceFile | body | ruleBody => exact Render.modest_pure _
  | conditional => exact Render.modest_closeConditional node said
  | diagnostic => exact Render.modest_closeDiagnostic node _
  | not => exact (Render.modest_require _ _ _).bind fun _ => Render.modest_pure _
  | and | or | eq => exact Render.modest_closeOperands node _ said
  | buildCommand => exact Render.modest_closeCommand node _
  | comment | identifier | string | error =>
    simp only [Render.node, kind]
    exact Render.modest_pure _
  | isDefined =>
    simp only [Render.node, kind]
    exact Render.modest_isDefined node
  | expansion | value | literal | message | command | path =>
    simp only [Render.node, kind]
    exact Render.modest_value node
  | _ =>
    simp only [Render.node, kind]
    split
    · exact Render.modest_throw rfl
    · exact Render.modest_verbatim node

theorem performs_finish (other : node.kind ≠ .inclusion) (said : List Text) :
    node.Performs context (node.finish context said) := by
  by_cases still : node.kind.isActive = false
  · have silent : node.writes = [] := by
      unfold writes
      cases kind : node.kind <;> simp_all [Kind.isActive]
    have idle : node.registers = false := by
      unfold registers
      cases kind : node.kind <;> simp_all [Kind.isActive]
    exact performs_of_modest (modest_finish still said) silent idle
  · unfold finish
    cases kind : node.kind with
    | inclusion => exact absurd kind other
    | rule => exact performs_closeRule kind _
    | assignment appends expands =>
      simp only [Render.node, kind]
      exact performs_assignment kind
    | undef =>
      simp only [Render.node, kind]
      exact performs_undef kind
    | search =>
      simp only [Render.node, kind]
      exact performs_search kind
    | _ => simp [kind, Kind.isActive] at still

theorem changes_of_finish {said : List Text} {before after : Pass} {text : Text}
    (other : node.kind ≠ .inclusion) (ran : node.finish context said before = .ok text after) :
    ∃ changed, node.Changes context before changed ∧ changed.Calm after := by
  have performs := @performs_finish context node other said before
  rw [ran] at performs
  exact performs

theorem isLocal_of_finish {said : List Text} {before after : Pass} {fault : Fault}
    (other : node.kind ≠ .inclusion) (ran : node.finish context said before = .error fault after) :
    fault.isLocal = true := by
  have performs := @performs_finish context node other said before
  rw [ran] at performs
  exact performs

end Node

namespace Render

variable {context : Context} {node : Node} {before after : Pass}

/-- The places where a node looks for the unit at a path, each once. -/
def searched (context : Context) (searchDirs : List Path) (requested : Text) : List Path :=
  Path.distinct (context.places searchDirs (Path.ofText requested))

theorem findUnit_eq (context : Context) (requested : Text) (pass : Pass) :
    ∃ notes, findUnit context requested pass =
      match (locate context.load (searched context pass.searchDirs requested)).found with
      | some found => .ok found { pass with notes }
      | none =>
        .error (.unitNotFound requested
          (locate context.load (searched context pass.searchDirs requested)).reason)
          { pass with notes } := by
  refine ⟨pass.notes ++ (locate context.load (searched context pass.searchDirs requested)).notes, ?_⟩
  have run : findUnit context requested pass = (match
      (locate context.load (searched context pass.searchDirs requested)).found with
      | some found => pure found
      | none => throw (.unitNotFound requested
        (locate context.load (searched context pass.searchDirs requested)).reason) : Render _)
      { pass with
        notes := pass.notes ++
          (locate context.load (searched context pass.searchDirs requested)).notes } := rfl
  rw [run]
  cases (locate context.load (searched context pass.searchDirs requested)).found <;> rfl

/-- A unit that is found lies at one of the places searched; looking for it changes nothing that later
statements read. -/
theorem located_ok {place : Path} {source : Text}
    (ran : located context node before = .ok (place, source) after) :
    before.Calm after ∧ ∃ requested,
      (locate context.load (searched context before.searchDirs requested)).found =
        some (place, source) := by
  obtain ⟨path, middle, named, rest⟩ := of_bind_ok ran
  obtain ⟨requested, last, static, looked⟩ := of_bind_ok rest
  have calm : before.Calm last :=
    ((modest_require node "path" (node.find? .path)).ok named).trans
      ((modest_staticPath context path).ok static)
  obtain ⟨notes, run⟩ := findUnit_eq context requested last
  rw [run, calm.searchDirs] at looked
  cases found : (locate context.load (searched context before.searchDirs requested)).found with
  | none =>
    rw [found] at looked
    cases looked
  | some unit =>
    rw [found] at looked
    cases looked
    exact ⟨⟨calm.environment, rfl, calm.usesBuilder⟩, requested, found⟩

theorem located_error {fault : Fault} (ran : located context node before = .error fault after) :
    fault.isLocal = true ∨ ∃ path reason, fault = .unitNotFound path reason := by
  rcases of_bind_error ran with failed | ⟨path, middle, _, rest⟩
  · exact .inl ((modest_require _ _ _).error failed)
  rcases of_bind_error rest with failed | ⟨requested, last, _, looked⟩
  · exact .inl ((modest_staticPath context path).error failed)
  obtain ⟨notes, run⟩ := findUnit_eq context requested last
  rw [run] at looked
  split at looked
  · cases looked
  · cases looked
    exact .inr ⟨_, _, rfl⟩

theorem calm_entered {place : Path} {source : Text}
    (ran : located context node before = .ok (place, source) after) :
    before.Calm (entered context node place after) :=
  (located_ok ran).1.trans ⟨rfl, rfl, rfl⟩

end Render

/-- What holds between passes that are calm, and across each change, holds across every step. -/
theorem Moment.Steady.of_changes {start : Moment} {Keeps : Pass → Pass → Prop}
    (calm : ∀ {before after : Pass}, before.Calm after → Keeps before after)
    (trans : ∀ {first second third : Pass}, Keeps first second → Keeps second third →
      Keeps first third)
    (change : ∀ {moment : Moment} {before changed : Pass}, Reaches start moment →
      moment.node.Changes moment.context before changed → Keeps before changed) :
    Steady start Keeps where
  refl pass := calm (.refl pass)
  trans := trans
  finish := by
    intro moment said before after text reached other ran
    obtain ⟨changed, changes, same⟩ := Node.changes_of_finish other ran
    exact trans (change reached changes) (calm same)
  enter := by
    intro moment place source middle reached includes located
    exact calm (Render.calm_entered located)

end BmakeZig
