import BmakeZig.Proofs.Compile.Foresight
import BmakeZig.Proofs.Compile.Nesting
import BmakeZig.Proofs.Render.Phrase
import BmakeZig.Units.Library

/-! Stored values. What a pass stores reads back as it was written, with its dollar signs doubled, and
no reference in it is left to be put in place at once. Fragments keep to this through substitution,
freezing and appending; so do the environments of a unit and of all it includes. -/
namespace BmakeZig

namespace Fragment

variable {environment : Environment} {line : Nat} {fragments : List Fragment} {value : Text}

/-- No reference is to be put in place at once. -/
def Deferred (fragments : List Fragment) : Prop :=
  ∀ name, reference name .immediate ∉ fragments

/-- The form in which values are stored. -/
structure Stored (value : Text) : Prop where
  written : toText (split value) = value
  deferred : Deferred (split value)

theorem toText_cons (first : Fragment) (rest : List Fragment) :
    toText (cons first rest) = written first ++ toText rest := by
  unfold cons
  split
  · rfl
  · simp [toText, written]
  · rfl

theorem toText_merge (fragments : List Fragment) : toText (merge fragments) = toText fragments := by
  induction fragments with
  | nil => rfl
  | cons first fragments ih =>
    rw [merge, List.foldr_cons, ← merge, toText_cons, ih]
    rfl

/-- What is written from fragments that defer their references is in the form of stored values. -/
theorem stored_toText (named : Named fragments) (deferred : Deferred fragments) :
    Stored (toText fragments) where
  written := by rw [split_toText named, toText_merge]
  deferred := by
    intro name member
    rw [split_toText named, reference_mem_merge] at member
    exact deferred name member

theorem deferred_settle (fragment : Fragment) (name : Text) :
    (settle environment fragment).value ≠ reference name .immediate := by
  unfold settle
  split
  · split <;> simp [Noted.map]
  · next other => exact fun same => other name same

theorem deferred_substitute (fragment : Fragment) :
    Deferred (substitute environment line fragment).value := by
  intro name member
  unfold substitute at member
  split at member
  · split at member
    · simp only [Noted.each, List.map_map, List.mem_map, Function.comp_def] at member
      obtain ⟨inner, _, same⟩ := member
      exact deferred_settle inner name same
    · simp at member
  · next other =>
    rw [List.mem_singleton] at member
    exact other name member.symm

theorem deferred_substituteAll (fragments : List Fragment) :
    Deferred (substituteAll environment line fragments).value := by
  intro name member
  rw [substituteAll_value, List.mem_flatMap] at member
  obtain ⟨fragment, _, found⟩ := member
  exact deferred_substitute fragment name found

end Fragment

namespace Environment

variable {environment : Environment} {name value : Text}

/-- All values are in the form of stored ones. -/
def Stored (environment : Environment) : Prop :=
  ∀ name value, environment.get? name = some value → Fragment.Stored value

theorem Stored.assign (stored : environment.Stored) (name : Text) (form : Fragment.Stored value) :
    (environment.assign name value).Stored := by
  intro other held found
  rw [get?_assign] at found
  split at found
  · cases found
    exact form
  · exact stored other held found

theorem Stored.undefine (stored : environment.Stored) (name : Text) :
    (environment.undefine name).Stored := by
  intro other held found
  rw [get?_undefine] at found
  split at found
  · cases found
  · exact stored other held found

end Environment

namespace Render

variable {environment : Environment} {fragments : List Fragment} {node : Node} {pass after : Pass}

/-- An appended value is written from the old fragments, the separator and the new ones. -/
theorem stored_assigned {settings : Settings} {kept : List Fragment} (stored : environment.Stored)
    (plain : '$' ∉ settings.appendSeparator) (named : Fragment.Named kept)
    (deferred : Fragment.Deferred kept) (name : Text) (appends : Bool) :
    (assigned settings environment name appends kept).Stored := by
  cases appends with
  | false => exact stored.assign name (Fragment.stored_toText named deferred)
  | true =>
    have older : ∃ old, (environment.get? name).getD [] = Fragment.toText old ∧ Fragment.Named old ∧
        Fragment.Deferred old := by
      cases found : environment.get? name with
      | none => exact ⟨[], rfl, by simp [Fragment.Named], by simp [Fragment.Deferred]⟩
      | some value =>
        have form := stored name value found
        exact ⟨Fragment.split value, form.written.symm, Fragment.named_split value, form.deferred⟩
    obtain ⟨old, same, namedOld, deferredOld⟩ := older
    apply stored.assign name
    rw [same, ← Foresees.toText_appendedFragments plain]
    apply Fragment.stored_toText
    · intro inner mode member
      rcases Foresees.reference_mem_appendedFragments member with before | behind
      · exact namedOld inner mode before
      · exact named inner mode behind
    · intro inner member
      rcases Foresees.reference_mem_appendedFragments member with before | behind
      · exact deferredOld inner before
      · exact deferred inner behind

theorem fragments_ok (ran : Render.fragments node pass = .ok fragments after) :
    ∃ environment written, fragments = (Fragment.substituteAll environment node.line written).value := by
  obtain ⟨written, middle, _, rest⟩ := of_bind_ok ran
  obtain ⟨environment, _, _, last⟩ := of_bind_ok rest
  cases last
  exact ⟨environment, written, rfl⟩

theorem deferred_kept {line : Nat} {expands : Bool} (deferred : Fragment.Deferred fragments) :
    Fragment.Deferred (kept environment line expands fragments) := by
  cases expands with
  | false => exact deferred
  | true => exact fun _ => Fragment.reference_not_mem_freeze

theorem named_kept {line : Nat} {expands : Bool} (named : Fragment.Named fragments) :
    Fragment.Named (kept environment line expands fragments) := by
  cases expands with
  | false => exact named
  | true => exact fun _ _ member => absurd member Fragment.reference_not_mem_freeze

theorem deferred_valueFragments (ran : valueFragments node pass = .ok fragments after) :
    Fragment.Deferred fragments := by
  unfold valueFragments at ran
  cases valued : node.namedChild? 1 with
  | none =>
    rw [valued] at ran
    cases ran
    simp [Fragment.Deferred]
  | some value =>
    simp only [valued] at ran
    obtain ⟨environment, written, rfl⟩ := fragments_ok ran
    exact Fragment.deferred_substituteAll written

/-- The references that an assignment of a unit writes are to names. -/
theorem named_valueFragments {appends expands : Bool} (shape : Shape .statement node)
    (kind : node.kind = .assignment appends expands)
    (ran : valueFragments node pass = .ok fragments after) : Fragment.Named fragments := by
  cases shape with
  | @assignment _ _ line text operator target value assigned valued =>
    unfold valueFragments at ran
    simp only [assignment_value assigned valued] at ran
    rcases fragments_value valued with ⟨found, named, runs⟩ | ⟨fault, fails⟩
    · obtain ⟨notes, run⟩ := runs pass
      cases run.symm.trans ran
      exact named pass.environment
    · cases (fails pass).symm.trans ran
  | located kinds => rcases kinds with rfl | rfl <;> cases kind
  | comment | error | undef | diagnostic | rule | conditional => cases kind

end Render

namespace Moment

variable {start moment next : Moment}

/-- The node is a unit that was read from a source, or stands in one; and so do the units that are
included from here on. -/
def IsRead (moment : Moment) : Prop :=
  moment.context.parse = Source.parse ∧
    ((∃ source, moment.node = Source.parse source) ∨ Fits moment.node)

theorem IsRead.fits (isRead : moment.IsRead) : ∀ child ∈ moment.node.children, Fits child := by
  rcases isRead.2 with ⟨source, same⟩ | fits
  · rw [same]
    exact Source.fits_parse source
  · exact fits.children

theorem isRead_of_reaches (reached : Reaches start moment) (isRead : start.IsRead) :
    moment.IsRead := by
  induction reached with
  | refl => exact isRead
  | @tail moment next before calls ih =>
    refine ⟨(Reaches.context (.single calls)).2.2.1.trans ih.1, ?_⟩
    cases calls with
    | @child _ _ child _ _ rendered ran =>
      right
      have member : child ∈ moment.node.rendered := by simp [rendered]
      rcases Node.mem_rendered member with inside | ⟨clause, listed, inside⟩
      · exact ih.fits child inside
      · exact (ih.fits clause listed).children child inside
    | @unit _ source _ includes located closed room =>
      exact .inl ⟨source, congrFun ih.1 source⟩

theorem steady_stored (isRead : start.IsRead) (plain : '$' ∉ start.context.settings.appendSeparator) :
    Steady start fun before after => before.environment.Stored → after.environment.Stored := by
  apply Steady.of_changes
  · intro before after calm stored
    rwa [calm.environment]
  · exact fun one two stored => two (one stored)
  · intro moment before changed reached changes stored
    cases changes with
    | nothing | search | step => exact stored
    | undef => exact stored.undefine _
    | assignment kind aimed found =>
      have shape : Shape .statement moment.node := by
        rcases (isRead_of_reaches reached isRead).2 with ⟨source, same⟩ | fits
        · rw [same] at kind
          cases kind
        · exact fits.statement_of_kind kind
      have separator : '$' ∉ moment.context.settings.appendSeparator := by
        rwa [(Reaches.context reached).2.1]
      exact Render.stored_assigned stored separator
        (Render.named_kept (Render.named_valueFragments shape kind found))
        (Render.deferred_kept (Render.deferred_valueFragments found)) _ _

end Moment

namespace Compile

/-- A unit leaves stored values behind if it was given such values; and no value that is cut up in any
pass holds a reference to be put in place at once. -/
theorem values_stored :
    (∀ (load : Loader) (settings : Settings) (process : ProcessEnvironment) (unit : Text)
      (environment : Environment) (compiled : Compiled),
      '$' ∉ settings.appendSeparator → environment.Stored →
      (source (standard load settings process) unit environment).result = .ok compiled →
      compiled.environment.Stored) ∧
    ∀ (node : Node) (pass after : Pass) (fragments : List Fragment),
      Render.fragments node pass = .ok fragments after → Fragment.Deferred fragments := by
  constructor
  · intro load settings process unit environment compiled plain stored result
    obtain ⟨body, pass, rendered, same, _⟩ := tree_ok result
    have isRead : (start (standard load settings process) (Source.parse unit) environment).IsRead :=
      ⟨rfl, .inl ⟨unit, rfl⟩⟩
    rw [same]
    apply (Moment.steady_stored isRead plain).run .refl ((run_start rfl).trans rendered)
    exact stored
  · intro node pass after fragments ran
    obtain ⟨environment, written, rfl⟩ := Render.fragments_ok ran
    exact Fragment.deferred_substituteAll written

/-- References of all modes, doubled dollar signs and appended values, here and in the unit next
door. -/
def thriftyUnit : Text :=
  Text.joinWith ['\n'] <| List.map String.toList
    ["PRICE = $$5 $(UNIT)", "%include next", "TOTAL += $[PRICE] $\x7bUNIT\x7d", "TOTAL += $[TOTAL]",
      "NOW =% $(TOTAL) $$"]

def thriftyLibrary : Library :=
  Library.ofFiles [("next".toList, "TOTAL = $[UNIT] each".toList)]

def thriftyEnvironment : Environment :=
  ({} : Environment).assign "UNIT".toList "$(CURRENCY)$$".toList

theorem thriftyUnit_stored :
    '$' ∉ ({} : Settings).appendSeparator ∧ thriftyEnvironment.Stored ∧
      ∃ compiled, (source (standard thriftyLibrary.load {} []) thriftyUnit thriftyEnvironment).result =
        .ok compiled ∧ compiled.environment.Stored := by
  have plain : '$' ∉ ({} : Settings).appendSeparator := by decide
  have form : Fragment.Stored "$(CURRENCY)$$".toList :=
    @Fragment.stored_toText [.reference "CURRENCY".toList .recursive, .literal ['$']]
      (Fragment.named_iff.2 (by decide)) (by simp [Fragment.Deferred])
  have stored : thriftyEnvironment.Stored := by
    apply Environment.Stored.assign _ _ form
    intro name value found
    cases found
  have compiles : (source (standard thriftyLibrary.load {} []) thriftyUnit
      thriftyEnvironment).result.isOk = true := by decide +kernel
  refine ⟨plain, stored, ?_⟩
  cases result : (source (standard thriftyLibrary.load {} []) thriftyUnit thriftyEnvironment).result with
  | error fault =>
    rw [result] at compiles
    cases compiles
  | ok compiled => exact ⟨compiled, rfl, values_stored.1 _ _ _ _ _ _ plain stored result⟩

end Compile

end BmakeZig
