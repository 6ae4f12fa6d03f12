import BmakeZig.Proofs.Compile.Foresight
import BmakeZig.Proofs.Render.Closed
import BmakeZig.Units.Library

/-! Whatever a unit and the units it includes hold, the program they compile to is lexically closed:
no string leaves its line, and the brackets outside of strings and comments are balanced. -/
namespace BmakeZig.Compile

variable {load : Loader} {settings : Settings} {process : ProcessEnvironment} {context : Context}
  {environment : Environment} {compiled : Compiled}

theorem isClosed_source (around : context.OneLine) (reads : context.parse = Source.parse)
    (oneLine : environment.OneLine) {text : Text}
    (result : (source context text environment).result = .ok compiled) :
    Zig.isClosed compiled.output = true := by
  obtain ⟨body, pass, rendered, -, output⟩ := tree_ok result
  have start : Pass.OneLine { environment, notes := (seeds environment).notes } :=
    ⟨oneLine, by simp⟩
  rw [reads] at rendered
  have whole := (Render.gives_render _ around reads text _ body pass start rendered).1
  rw [output]
  split
  · exact (whole.program _ _).isClosed
  · exact whole.isClosed

theorem oneLine_standard (directories : ∀ directory ∈ settings.includeDirs, '\n' ∉ directory)
    (separator : '\n' ∉ settings.appendSeparator) (ambient : process.OneLine) :
    (standard load settings process).OneLine :=
  ⟨by simp [standard], by simp [standard], directories, separator, ambient⟩

/-- A source or a file, with whatever prelude, units and settings: only texts that a caller hands over
with a line break in them could break the program. -/
theorem output_closed (load : Loader) (settings : Settings) (process : ProcessEnvironment)
    (directories : ∀ directory ∈ settings.includeDirs, '\n' ∉ directory)
    (separator : '\n' ∉ settings.appendSeparator)
    (ambient : ∀ name value, process.get? name = some value → '\n' ∉ value) :
    (∀ text environment compiled,
      (∀ name value, environment.get? name = some value → '\n' ∉ value) →
      (source (standard load settings process) text environment).result = .ok compiled →
      Zig.isClosed compiled.output = true) ∧
    ∀ path compiled, '\n' ∉ path → (file (standard load settings process) path).result = .ok compiled →
      Zig.isClosed compiled.output = true := by
  have around := @oneLine_standard load settings process directories separator ambient
  constructor
  · intro text environment compiled seeded result
    exact isClosed_source around rfl seeded result
  · intro path compiled single result
    unfold file at result
    split at result
    · cases result
    · have rooted : { standard load settings process with
          root := some (Path.ofText path).normalize : Context }.OneLine := by
        refine { around with root := fun root found => ?_ }
        cases found
        exact (Path.oneLine_ofText single).normalize
      exact isClosed_source rooted rfl (fun name value found => by cases found) result

/-- Quotes and brackets in every place that a unit has for them. -/
def ruggedUnit : Text :=
  Text.joinWith ['\n'] <| List.map String.toList
    ["# \"\x7b", "X = \"( $(HOME)", "%if !X || X == \"(\"", ") \x7b \"", "%include near", "%else",
      "%message \"[$[X]", "%endif", ".\"(:", "\t~time \"(", "\t~what \x7b\""]

def ruggedLibrary : Library :=
  Library.ofFiles [("up/rugged".toList, ruggedUnit), ("up/near".toList, "%search $(HOME)".toList)]

def ruggedSettings : Settings :=
  { includeDirs := ["up".toList], appendSeparator := ['"'] }

def ruggedProcess : ProcessEnvironment :=
  ProcessEnvironment.ofPairs [("HOME".toList, "\x7b\"".toList)]

theorem ruggedUnit_closed :
    (∀ directory ∈ ruggedSettings.includeDirs, '\n' ∉ directory) ∧
      '\n' ∉ ruggedSettings.appendSeparator ∧
      (∀ name value, ruggedProcess.get? name = some value → '\n' ∉ value) ∧
      '\n' ∉ "up/rugged".toList ∧
      (∃ compiled, (source (standard ruggedLibrary.load ruggedSettings ruggedProcess) ruggedUnit
          {}).result = .ok compiled ∧ Zig.isClosed compiled.output = true) ∧
      ∃ compiled, (file (standard ruggedLibrary.load ruggedSettings ruggedProcess)
          "up/rugged".toList).result = .ok compiled ∧ Zig.isClosed compiled.output = true := by
  have directories : ∀ directory ∈ ruggedSettings.includeDirs, '\n' ∉ directory := by decide
  have separator : '\n' ∉ ruggedSettings.appendSeparator := by decide
  have path : '\n' ∉ "up/rugged".toList := by decide
  have entries : ∀ entry ∈ ruggedProcess, '\n' ∉ entry := by decide
  have ambient : ∀ name value, ruggedProcess.get? name = some value → '\n' ∉ value := by
    intro name value found inside
    unfold ProcessEnvironment.get? at found
    split at found
    · cases found
    · obtain ⟨entry, member, behind⟩ := List.exists_of_findSome?_eq_some found
      rw [Text.eq_append_of_after? behind] at member
      exact entries _ member (List.mem_append_right _ inside)
  obtain ⟨sources, files⟩ := output_closed ruggedLibrary.load ruggedSettings ruggedProcess directories
    separator ambient
  have ofSource : (source (standard ruggedLibrary.load ruggedSettings ruggedProcess) ruggedUnit
      {}).result.isOk = true := by decide +kernel
  have ofFile : (file (standard ruggedLibrary.load ruggedSettings ruggedProcess)
      "up/rugged".toList).result.isOk = true := by decide +kernel
  refine ⟨directories, separator, ambient, path, ?_, ?_⟩
  · cases result : (source (standard ruggedLibrary.load ruggedSettings ruggedProcess) ruggedUnit
        {}).result with
    | error fault =>
      rw [result] at ofSource
      cases ofSource
    | ok compiled =>
      exact ⟨compiled, rfl, sources ruggedUnit {} compiled (fun _ _ found => by cases found) result⟩
  · cases result : (file (standard ruggedLibrary.load ruggedSettings ruggedProcess)
        "up/rugged".toList).result with
    | error fault =>
      rw [result] at ofFile
      cases ofFile
    | ok compiled => exact ⟨compiled, rfl, files _ compiled path result⟩

end BmakeZig.Compile
