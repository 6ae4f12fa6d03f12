import BmakeZig.Fault
import BmakeZig.Proofs.Zig.Access
import BmakeZig.Zig.Program

/-! How the texts of the program are put together: of fixed text, literals, blocks, variables and texts
that are passed on as they are. Where a reader meets known variables only in the texts that are passed
on, it meets no others in the whole. -/
namespace BmakeZig

/-- What is woven in: variables, and texts that are passed on. -/
structure Threads where
  known : Text → Prop
  copied : Text → Prop

namespace Zig

/-- The flag tells texts that anything may follow from those that may end in a name. -/
inductive Woven (threads : Threads) : Bool → Text → Prop where
  | fixed {text : Text} (plain : isPlain text = true) : Woven threads true text
  | quoted (text : Text) : Woven threads true (literal text)
  | block {apart : Bool} {text : Text} (inner : Woven threads apart text) :
      Woven threads true (block text)
  | access {name : Text} (known : threads.known name) :
      Woven threads false (variableNamed name)
  | copy {text : Text} (given : threads.copied text) : Woven threads false text
  | loose {text : Text} (whole : Woven threads true text) : Woven threads false text
  | append {apart : Bool} {left right : Text} (first : Woven threads true left)
      (second : Woven threads apart right) : Woven threads apart (left ++ right)
  | stop {apart : Bool} {left right : Text} {c : Char} (first : Woven threads false left)
      (stops : isStop c = true) (second : Woven threads apart (c :: right)) :
      Woven threads apart (left ++ c :: right)

variable {threads : Threads} {apart : Bool} {text left right closing : Text} {c : Char}
  {texts : List Text}

/-- A reader of the text meets known variables only, whatever cuts it off and follows. -/
def Confined (known : Text → Prop) (text : Text) : Prop :=
  ∀ rest : Text, (∀ c ∈ rest.head?, isStop c = true) → (∀ name ∈ accesses rest, known name) →
    ∀ name ∈ accesses (text ++ rest), known name

theorem Confined.alone {known : Text → Prop} (confined : Confined known text) :
    ∀ name ∈ accesses text, known name := by
  have alone := confined [] (by simp) (by simp [accesses])
  rwa [List.append_nil] at alone

theorem confined_quiet {known : Text → Prop} (quiet : isQuiet text = true) : Confined known text :=
  fun _ stops later name member => later name (mem_accesses_quiet quiet stops member)

namespace Woven

/-- Induction on how the text is woven. What ends one piece is cut off by the next. -/
theorem mem_accesses (woven : Woven threads apart text)
    (copied : ∀ text, threads.copied text → Confined threads.known text)
    {rest : Text} (boundary : apart = false → ∀ c ∈ rest.head?, isStop c = true)
    (later : ∀ name ∈ accesses rest, threads.known name) :
    ∀ name ∈ accesses (text ++ rest), threads.known name := by
  induction woven generalizing rest with
  | fixed plain => rwa [accesses_plain plain]
  | quoted text => rwa [accesses_literal]
  | @block _ text inner ih =>
    have inside := @ih [] (by simp) (by simp [accesses])
    rw [List.append_nil] at inside
    intro name member
    exact (mem_accesses_block member).elim (inside name) (later name)
  | access known =>
    rw [accesses_variable _ fun c first => isNameChar_of_isStop (boundary rfl c first)]
    exact List.forall_mem_cons.2 ⟨known, later⟩
  | copy given => exact copied _ given rest (boundary rfl) later
  | loose whole ih => exact ih (by simp) later
  | append first second ihFirst ihSecond =>
    rw [List.append_assoc]
    exact ihFirst (by simp) (ihSecond boundary later)
  | stop first stops second ihFirst ihSecond =>
    rw [List.append_assoc]
    exact ihFirst (by simpa using stops) (ihSecond boundary later)

theorem confined (woven : Woven threads apart text)
    (copied : ∀ text, threads.copied text → Confined threads.known text) :
    Confined threads.known text :=
  fun _ stops later => woven.mem_accesses copied (fun _ => stops) later

theorem nil : Woven threads true [] :=
  .fixed rfl

theorem loosen (woven : Woven threads apart text) : Woven threads false text := by
  cases apart with
  | false => exact woven
  | true => exact .loose woven

theorem within {opening : Text} (woven : Woven threads apart text)
    (opens : Woven threads true opening) (stops : isStop c = true)
    (closes : Woven threads true (c :: closing)) :
    Woven threads true (opening ++ text ++ c :: closing) :=
  .stop (.append opens woven.loosen) stops closes

/-- Fixed text in front of a text and behind it. -/
theorem between {opening : Text} (woven : Woven threads apart text)
    (opens : isPlain opening = true) (stops : isStop c = true)
    (closes : isPlain (c :: closing) = true) :
    Woven threads true (opening ++ text ++ c :: closing) :=
  woven.within (.fixed opens) stops (.fixed closes)

theorem joinWith {separator : Text} (stops : isStop c = true)
    (between : isPlain (c :: separator) = true) (each : ∀ text ∈ texts, Woven threads false text) :
    Woven threads false (Text.joinWith (c :: separator) texts) := by
  induction texts with
  | nil => exact .loose .nil
  | cons text texts ih =>
    have first := each text List.mem_cons_self
    cases texts with
    | nil => exact first
    | cons next texts =>
      have rest := ih fun other member => each other (List.mem_cons_of_mem _ member)
      exact .append (.stop first stops (.fixed between)) rest

end Woven

/-! Expressions. -/

theorem woven_concat (each : ∀ text ∈ texts, Woven threads false text) :
    Woven threads true (concat texts) := by
  have parts : Woven threads false (Text.joinWith [',', ' '] texts) :=
    .joinWith (by decide) (by decide) each
  exact parts.between (by decide) (by decide) (by decide)

theorem woven_sequence (each : ∀ text ∈ texts, Woven threads false text) :
    Woven threads false (sequence texts) := by
  unfold sequence
  split
  · exact .loose (.quoted [])
  · exact each _ List.mem_cons_self
  · exact .loose (woven_concat each)

theorem woven_processVariable (name : Text) : Woven threads true (processVariable name) :=
  (Woven.quoted name).between (by decide) (by decide) (by decide)

theorem woven_processVariableOrEmpty (name : Text) :
    Woven threads true (processVariableOrEmpty name) := by
  have otherwise : Woven threads true (" orelse ".toList ++ literal [] ++ ")".toList) :=
    (Woven.quoted []).between (by decide) (by decide) (by decide)
  exact (woven_processVariable name).within (.fixed (by decide)) (by decide) otherwise

theorem Woven.withoutEndSlashes (woven : Woven threads apart text) :
    Woven threads true (withoutEndSlashes text) := by
  have slash : Woven threads true (", ".toList ++ literal ['/'] ++ ")".toList) :=
    (Woven.quoted ['/']).between (by decide) (by decide) (by decide)
  exact woven.within (.fixed (by decide)) (by decide) slash

theorem woven_isSet (name : Text) : Woven threads true (isSet name) :=
  (woven_processVariable name).between (by decide) (by decide) (by decide)

theorem woven_isUnset (name : Text) : Woven threads true (isUnset name) :=
  (woven_processVariable name).between (by decide) (by decide) (by decide)

theorem Woven.fileExists (woven : Woven threads apart text) : Woven threads true (fileExists text) :=
  woven.between (by decide) (by decide) (by decide)

theorem Woven.equal {other : Bool} (first : Woven threads apart left)
    (second : Woven threads other right) : Woven threads true (equal left right) := by
  have opening : Woven threads true ("std.mem.eql(u8, ".toList ++ left ++ ", ".toList) :=
    first.between (by decide) (by decide) (by decide)
  exact second.within opening (by decide) (.fixed (by decide))

/-! Statements. -/

theorem Woven.set {name : Text} (known : threads.known name) (woven : Woven threads apart text) :
    Woven threads true (set name text) := by
  have equals : Woven threads true " = ".toList := .fixed (by decide)
  have target := Woven.stop (.access known) (by decide) equals
  exact woven.within target (by decide) (.fixed (by decide))

/-- A format is written as it stands in a literal. -/
theorem Woven.print (woven : Woven threads apart text) (format : Text) :
    Woven threads true (print (format.flatMap escape) text) := by
  have spelled : Zig.print (format.flatMap escape) text =
      "std.debug.print(".toList ++ literal format ++ ", .\x7b".toList ++ text ++ "\x7d);".toList := by
    unfold Zig.print literal
    simp
  have head : Woven threads true ("std.debug.print(".toList ++ literal format ++ ", .\x7b".toList) :=
    (Woven.quoted format).between (by decide) (by decide) (by decide)
  rw [spelled]
  exact woven.within head (by decide) (.fixed (by decide))

theorem Woven.run (woven : Woven threads apart text) (echo check : Bool) :
    Woven threads true (run text echo check) := by
  have comma : Woven threads true ", ".toList := .fixed (by decide)
  have flag (holds : Bool) : Woven threads true (if holds then "true".toList else "false".toList) := by
    cases holds <;> exact .fixed (by decide)
  have command : Woven threads true ("try run(".toList ++ text ++ ", ".toList) :=
    woven.within (.fixed (by decide)) (by decide) comma
  exact (((command.append (flag echo)).append comma).append (flag check)).append (.fixed (by decide))

theorem Woven.buildStep (name : Text) (woven : Woven threads apart text) :
    Woven threads true (buildStep name text) := by
  have signature : Woven threads true
      "fn make(_: *std.Build.Step, _: std.Build.Step.MakeOptions) anyerror!void ".toList :=
    .fixed (by decide)
  have make := Woven.block (signature.append woven.block)
  have comma : Woven threads true ", ".toList := .fixed (by decide)
  have named : Woven threads true ("const step = b.step(".toList ++ literal name ++ ", ".toList) :=
    (Woven.quoted name).within (.fixed (by decide)) (by decide) comma
  have middle : Woven threads true ");\nstep.makeFn = struct ".toList := .fixed (by decide)
  have ending : Woven threads true ".make;".toList := .fixed (by decide)
  exact .block ((((named.append (.quoted _)).append middle).append make).append ending)

end Zig

theorem Marker.woven_call (marker : Marker) {threads : Threads} {apart : Bool} {message : Text}
    (woven : Zig.Woven threads apart message) : Zig.Woven threads true (marker.call message) := by
  have ending : Zig.Woven threads true "\x7d);".toList := .fixed (by decide)
  have head (call format : Text) (plain : Zig.isPlain call = true) : Zig.Woven threads true
      (call ++ Zig.literal format ++ ", .\x7b".toList) :=
    (Zig.Woven.quoted format).between plain (by decide) (by decide)
  cases marker with
  | error =>
    exact woven.within (head "std.debug.panic(".toList "Error occurred: \x7bs\x7d".toList rfl)
      (by decide) ending
  | warning =>
    exact woven.within (head "std.log.warn(".toList "\x7bs\x7d".toList rfl) (by decide) ending
  | message =>
    exact woven.within (head "std.debug.print(".toList "\x7bs\x7d\n".toList rfl) (by decide) ending

end BmakeZig
