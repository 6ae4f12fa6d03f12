import BmakeZig.Proofs.Compile.Declared
import BmakeZig.Proofs.Render.Expanding

/-! What becomes of a variable that was assigned an expanded value. The text is stored with its dollar
signs doubled, so it is cut up into itself, however much it looks like a reference; no other variable
has a part in it any more, and it stays until some statement writes the variable again. -/
namespace BmakeZig

open Relation (ReflTransGen)

namespace Environment

variable {environment : Environment} {name text : Text}

/-- The variable has the text, whatever any other variable has: there is no reference in what is
stored, full expansion gives the text without a note, and an immediate reference is the text. -/
structure Frozen (environment : Environment) (name text : Text) : Prop where
  stored : environment.get? name = some (Fragment.written (.literal text))
  plain : ∀ inner mode,
    .reference inner mode ∉ Fragment.split (Fragment.written (.literal text))
  expands : environment.expand? name = some ⟨text, []⟩
  inserts : ∀ line, Fragment.substitute environment line (.reference name .immediate) =
    ⟨Fragment.merge [.literal text], []⟩

theorem frozen_of_stored (stored : environment.get? name = some (Fragment.written (.literal text))) :
    environment.Frozen name text := by
  have cut := Fragment.split_written_literal text
  constructor
  case stored => exact stored
  case plain => exact (Fragment.spells_written text).plain
  case expands =>
    rw [expand?_of_live stored, expansion_of_live (.nil environment) (by simp) stored, cut]
    cases text with
    | nil => rfl
    | cons c text => simp [Noted.each, Noted.map, Fragment.merge, Fragment.cons, Fragment.expandWith]
  case inserts =>
    intro line
    rw [Fragment.substitute, stored]
    simp only [cut]
    cases text <;> rfl

end Environment

/-- The pass goes on to another one, over a statement, in whatever unit, that does not write the
variable: to the pass behind it, or to the one in which something inside it is rendered. -/
inductive Pass.Onward (name : Text) : Pass → Pass → Prop where
  | past {moment : Moment} {text : Text} {after : Pass} (apart : ¬moment.Writes name)
      (ran : moment.run = .ok text after) : Onward name moment.pass after
  | into {moment inner : Moment} (apart : ¬moment.Writes name) (reached : moment.Reaches inner) :
      Onward name moment.pass inner.pass

theorem Pass.Onward.get? {name : Text} {before after : Pass} (onward : Onward name before after) :
    after.environment.get? name = before.environment.get? name := by
  cases onward with
  | past apart ran => exact ((Moment.steady_grows _).run .refl ran).held name apart
  | into apart reached => exact ((Moment.steady_grows _).upTo reached).held name apart

theorem Pass.get?_of_onward {name : Text} {before after : Pass}
    (onward : ReflTransGen (Onward name) before after) :
    after.environment.get? name = before.environment.get? name := by
  induction onward with
  | refl => rfl
  | tail _ step ih => exact step.get?.trans ih

namespace Moment

/-- An assignment that expands its value fixes it: the program gets the text that every reference left
in the value comes to at this moment, and the variable has that text until it is written again. -/
theorem assignment_freezes {start : Moment} {text : Text} {after : Pass}
    (kind : start.node.kind = .assignment false true) (ran : start.run = .ok text after) :
    ∃ target found middle, start.node.find? .identifier = some target ∧
      Render.valueFragments start.node start.pass = .ok found middle ∧
      text = Zig.set target.text
        (Zig.literal (Fragment.readAll start.pass.environment.valueOf found)) ∧
      ∀ later, ReflTransGen (Pass.Onward target.text) after later →
        later.environment.Frozen target.text
          (Fragment.readAll start.pass.environment.valueOf found) := by
  obtain ⟨target, found, middle, aimed, valued⟩ := of_expanding_run kind ran
  obtain ⟨_, same, stored⟩ := sets_of_expanding kind aimed valued
  cases ran.symm.trans same
  refine ⟨target, found, middle, aimed, valued, rfl, fun later onward => ?_⟩
  apply Environment.frozen_of_stored
  rw [Pass.get?_of_onward onward, stored, Environment.get?_assign, if_pos rfl]

/-- The variable's own value, slashes that are dropped, a text that looks like a reference, and a name
that is not bound. -/
def quoted : Text :=
  "$(Z) $\x7bDIR\x7d $[COST]$(NONE)".toList

def quoting : Moment where
  context := Render.plainContext
  node := Render.expanding quoted
  pass :=
    { environment := (((Environment.assign {} ['Z'] "old".toList).assign "ROOT".toList "/opt".toList).assign
        "DIR".toList "$(ROOT)/lib//".toList).assign "COST".toList "$$(ROOT)".toList }

theorem quoting_freezes : quoting.node.kind = .assignment false true ∧
    ∃ text after, quoting.run = .ok text after ∧ text = "vars.Z = \"old /opt/lib $(ROOT)\";".toList ∧
      ∀ later, ReflTransGen (Pass.Onward ['Z']) after later →
        later.environment.Frozen ['Z'] "old /opt/lib $(ROOT)".toList := by
  let found := (Fragment.substituteAll quoting.pass.environment 1 (Fragment.split quoted)).value
  have word : Fragment.readAll quoting.pass.environment.valueOf found = "old /opt/lib $(ROOT)".toList := by
    decide +kernel
  obtain ⟨notes, valued⟩ : ∃ notes, Render.valueFragments quoting.node quoting.pass =
      .ok found { quoting.pass with notes } := Render.fragments_of_written rfl quoting.pass
  obtain ⟨after, ran, -⟩ := sets_of_expanding rfl rfl valued
  obtain ⟨target, _, middle, aimed, same, said, freezes⟩ := assignment_freezes rfl ran
  obtain rfl : Node.leaf .identifier 1 ['Z'] = target := Option.some.inj aimed
  cases valued.symm.trans same
  rw [word] at ran freezes
  exact ⟨rfl, _, after, ran, by decide, freezes⟩

end Moment

end BmakeZig
