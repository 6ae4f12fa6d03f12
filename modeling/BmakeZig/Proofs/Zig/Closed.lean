import BmakeZig.Fault
import BmakeZig.Proofs.Zig.Scan
import BmakeZig.Zig.Program

/-! The expressions, statements and blocks of the emitted program are lexically closed, whatever
names, values and texts they are made of. -/
namespace BmakeZig

namespace Zig

variable {text left right : Text} {texts : List Text}

theorem inline_concat (each : ∀ text ∈ texts, Inline text) : Inline (concat texts) := by
  have separator : Inline [',', ' '] := inline_of_run rfl
  exact (separator.joinWith each).within ['\x7b', '('] rfl rfl

theorem inline_sequence (each : ∀ text ∈ texts, Inline text) : Inline (sequence texts) := by
  unfold sequence
  split
  · exact inline_literal []
  · exact each _ List.mem_cons_self
  · exact inline_concat each

theorem inline_processVariable (name : Text) : Inline (processVariable name) :=
  (inline_literal name).within ['('] rfl rfl

theorem inline_processVariableOrEmpty (name : Text) : Inline (processVariableOrEmpty name) :=
  (inline_processVariable name).within ['('] rfl rfl

theorem inline_variableNamed (name : Text) : Inline (variableNamed name) := by
  have opening : Inline "vars.".toList := inline_of_run rfl
  exact opening.append (inline_identifier name)

theorem Inline.withoutEndSlashes (inline : Inline text) : Inline (withoutEndSlashes text) :=
  inline.within ['('] rfl rfl

theorem inline_isSet (name : Text) : Inline (isSet name) :=
  (inline_processVariable name).within ['('] rfl rfl

theorem inline_isUnset (name : Text) : Inline (isUnset name) :=
  (inline_processVariable name).within ['('] rfl rfl

theorem Inline.fileExists (inline : Inline text) : Inline (fileExists text) :=
  inline.within ['(', '(', '('] rfl rfl

theorem Inline.equal (first : Inline left) (second : Inline right) :
    Inline (Zig.equal left right) := by
  have comma : Inline ", ".toList := inline_of_run rfl
  have whole : Zig.equal left right =
      "std.mem.eql(u8, ".toList ++ (left ++ ", ".toList ++ right) ++ ")".toList := by
    unfold Zig.equal
    simp only [List.append_assoc]
  rw [whole]
  exact ((first.append comma).append second).within ['('] rfl rfl

theorem Inline.set (name : Text) (inline : Inline text) : Inline (set name text) := by
  have equals : Inline " = ".toList := inline_of_run rfl
  have ending : Inline ";".toList := inline_of_run rfl
  exact (((inline_variableNamed name).append equals).append inline).append ending

theorem Inline.print {format : Text} (inline : Inline text)
    (formatted : Scan.run ⟨.string, ['(']⟩ format = some ⟨.string, ['(']⟩) :
    Inline (print format text) := by
  refine inline.within ['\x7b', '('] ?_ rfl
  have start : Scan.run {} "std.debug.print(\"".toList = some ⟨.string, ['(']⟩ := rfl
  rw [Scan.run_append, Scan.run_append, start, Option.bind_some, formatted, Option.bind_some]
  rfl

theorem Inline.run (inline : Inline text) (echo check : Bool) : Inline (run text echo check) := by
  have comma : Inline ", ".toList := inline_of_run rfl
  have flag (holds : Bool) : Inline (if holds then "true".toList else "false".toList) := by
    cases holds <;> exact inline_of_run rfl
  have whole : Zig.run text echo check = "try run(".toList ++ (text ++ ", ".toList ++
      (if echo then "true".toList else "false".toList) ++ ", ".toList ++
      (if check then "true".toList else "false".toList)) ++ ");".toList := by
    unfold Zig.run
    simp only [List.append_assoc]
  rw [whole]
  exact ((((inline.append comma).append (flag echo)).append comma).append (flag check)).within ['(']
    rfl rfl

theorem Whole.buildStep (name : Text) (whole : Whole text) : Inline (buildStep name text) := by
  have signature : Inline
      "fn make(_: *std.Build.Step, _: std.Build.Step.MakeOptions) anyerror!void ".toList :=
    inline_of_run rfl
  have make := (signature.append whole.block).whole.block
  have comma : Inline ", ".toList := inline_of_run rfl
  have ending : Inline ".make;".toList := inline_of_run rfl
  have names := ((inline_literal name).append comma).append
    (inline_literal ("bmake rule ".toList ++ name))
  have step : Inline ("const step = b.step(".toList ++ (literal name ++ ", ".toList ++
      literal ("bmake rule ".toList ++ name)) ++ ");\nstep.makeFn = struct ".toList) :=
    names.within ['('] rfl rfl
  have statements := ((step.append make).append ending).whole
  simp only [List.append_assoc] at statements
  unfold Zig.buildStep
  simp only [List.append_assoc]
  exact statements.block

/-! Comments. -/

theorem newline_not_mem_ofNat (n : Nat) : '\n' ∉ Text.ofNat n := by
  intro member
  exact absurd (Nat.isDigit_of_mem_toDigits (by decide) (by decide) member) (by decide)

theorem Whole.sources {sources : List Text} (whole : Whole text)
    (oneLine : ∀ source ∈ sources, '\n' ∉ source) :
    Whole (text ++ sources.flatMap fun source => "\n// | ".toList ++ source) := by
  induction sources generalizing text with
  | nil => simpa using whole
  | cons source sources ih =>
    have line : '\n' ∉ " | ".toList ++ source := by simpa using oneLine source List.mem_cons_self
    have first := whole.below (whole_comment line)
    have rest := ih first fun other member => oneLine other (List.mem_cons_of_mem _ member)
    simpa using rest

theorem whole_unreadSpan (text : Text) (line : Nat) : Whole (unreadSpan text line) := by
  have banner : '\n' ∉ " ==== begin malformed bmake (line ".toList ++ Text.ofNat line ++
      ") ====".toList := by
    simp [newline_not_mem_ofNat]
  have oneLine : ∀ source ∈ Text.lines text, '\n' ∉ source := fun _ => Text.newline_not_mem_lines
  have sources := (whole_comment banner).sources oneLine
  have ending : Whole "// ==== end malformed bmake ====".toList := whole_comment (by decide)
  exact sources.below ending

/-! Whole programs. -/

theorem inline_declaration (name value : Text) : Inline (declaration name value) := by
  have start : Inline "pub var ".toList := inline_of_run rfl
  have type : Inline ": []const u8 = ".toList := inline_of_run rfl
  have ending : Inline ";".toList := inline_of_run rfl
  exact ((((start.append (inline_identifier name)).append type).append
    (inline_literal value)).append ending)

theorem Whole.program (whole : Whole text) (initial : List (Text × Text)) (usesBuilder : Bool) :
    Whole (program text initial usesBuilder) := by
  have top : Inline (header ++ "\n\nconst vars = struct ".toList) :=
    inline_of_run (by decide +kernel)
  have between : Inline ";\n\n".toList := inline_of_run rfl
  have helper : Inline (runHelper ++ "\n\npub fn build(b: *std.Build) !void ".toList) :=
    inline_of_run (by decide +kernel)
  have ending : Inline "\n".toList := inline_of_run rfl
  have declared : Whole (Text.joinWith ['\n']
      (initial.map fun entry => declaration entry.1 entry.2)) := by
    refine Whole.joinWith fun line member => ?_
    obtain ⟨entry, _, rfl⟩ := List.mem_map.1 member
    exact (inline_declaration entry.1 entry.2).whole
  have statements : Whole (if usesBuilder then text else "_ = b;\n".toList ++ text) := by
    split
    · exact whole
    · exact whole.behind (inline_of_run rfl)
  have script := (((((top.append declared.block).append between).append helper).append
    statements.block).append ending).whole
  unfold Zig.program
  simpa only [List.append_assoc] using script

end Zig

theorem Marker.inline_call (marker : Marker) {message : Text} (inline : Zig.Inline message) :
    Zig.Inline (marker.call message) := by
  cases marker <;> exact inline.within ['\x7b', '('] rfl rfl

end BmakeZig
