import BmakeZig.Compile
import BmakeZig.Interchange.Value

/-! Forms of settings, markers, warnings, faults and of what compiling yields. -/
namespace BmakeZig

namespace Settings

def toForm (settings : Settings) : Form :=
  Form.record
    [("prelude", .flag settings.prelude), ("include_dirs", Form.ofTexts settings.includeDirs),
      ("max_include_depth", .natural settings.maxIncludeDepth),
      ("append_separator", .text settings.appendSeparator)]

/-- A field that may be left out, but not be there with something else in it. -/
def optional (default : α) (read : Form → Option α) : Option Form → Option α
  | none => some default
  | some form => read form

def ofForm? (form : Form) : Option Settings := do
  let default : Settings := {}
  match ← form.record? ["prelude", "include_dirs", "max_include_depth", "append_separator"] with
  | [prelude, includeDirs, maxIncludeDepth, appendSeparator] =>
    return {
      prelude := ← optional default.prelude Form.flag? prelude
      includeDirs := ← optional default.includeDirs Form.texts? includeDirs
      maxIncludeDepth := ← optional default.maxIncludeDepth Form.nat? maxIncludeDepth
      appendSeparator := ← optional default.appendSeparator Form.text? appendSeparator }
  | _ => none

end Settings

namespace Marker

def label : Marker → String
  | .error => "Error"
  | .warning => "Warning"
  | .message => "Message"

def toForm (marker : Marker) : Form :=
  Form.label marker.label

def ofForm? (form : Form) : Option Marker := do
  let label ← form.bare?
  [error, warning, message].find? fun marker => marker.label.toList = label

end Marker

namespace Warning

def toForm (warning : Warning) : Form :=
  Form.record [("line", .natural warning.line), ("message", .text warning.message)]

def ofForm? (form : Form) : Option Warning := do
  match ← form.record? ["line", "message"] with
  | [some line, some message] => return ⟨← line.nat?, ← message.text?⟩
  | _ => none

end Warning

namespace Fault

/-- The label of a fault and the labelled particulars it carries. -/
def particulars : Fault → String × List (String × Form)
  | .unknownKind kind line => ("UnknownNodeKind", [("kind", .text kind), ("line", .natural line)])
  | .unknownMarker marker line =>
    ("UnknownDiagnosticMarker", [("marker", .text marker), ("line", .natural line)])
  | .malformed kind line expected =>
    ("MalformedNode",
      [("kind", .text kind), ("line", .natural line), ("expected", .text expected)])
  | .unitNotFound path reason =>
    ("IncludeNotFound", [("path", .text path), ("reason", .text reason)])
  | .inclusionCycle chain => ("IncludeCycle", [("chain", Form.ofTexts chain)])
  | .depthExceeded path depth =>
    ("IncludeDepthExceeded", [("path", .text path), ("depth", .natural depth)])
  | .unreadable path message => ("Io", [("path", .text path), ("message", .text message)])

def toForm (fault : Fault) : Form :=
  Form.tagged fault.particulars.1 (Form.record fault.particulars.2)

/-- Reads the particulars of the fault with a label. -/
def ofParticulars? (label : Text) (content : Option Form) : Option Fault :=
  match String.ofList label with
  | "UnknownNodeKind" => do
    match ← Form.carried? ["kind", "line"] content with
    | [some kind, some line] => return .unknownKind (← kind.text?) (← line.nat?)
    | _ => none
  | "UnknownDiagnosticMarker" => do
    match ← Form.carried? ["marker", "line"] content with
    | [some marker, some line] => return .unknownMarker (← marker.text?) (← line.nat?)
    | _ => none
  | "MalformedNode" => do
    match ← Form.carried? ["kind", "line", "expected"] content with
    | [some kind, some line, some expected] =>
      return .malformed (← kind.text?) (← line.nat?) (← expected.text?)
    | _ => none
  | "IncludeNotFound" => do
    match ← Form.carried? ["path", "reason"] content with
    | [some path, some reason] => return .unitNotFound (← path.text?) (← reason.text?)
    | _ => none
  | "IncludeCycle" => do
    match ← Form.carried? ["chain"] content with
    | [some chain] => return .inclusionCycle (← chain.texts?)
    | _ => none
  | "IncludeDepthExceeded" => do
    match ← Form.carried? ["path", "depth"] content with
    | [some path, some depth] => return .depthExceeded (← path.text?) (← depth.nat?)
    | _ => none
  | "Io" => do
    match ← Form.carried? ["path", "message"] content with
    | [some path, some message] => return .unreadable (← path.text?) (← message.text?)
    | _ => none
  | _ => none

def ofForm? (form : Form) : Option Fault := do
  let (label, content) ← form.alternative?
  ofParticulars? label content

end Fault

namespace Compiled

def toForm (compiled : Compiled) : Form :=
  Form.record
    [("output", .text compiled.output),
      ("warnings", .list (compiled.warnings.map Warning.toForm)),
      ("environment", compiled.environment.toForm)]

def ofForm? (form : Form) : Option Compiled := do
  match ← form.record? ["output", "warnings", "environment"] with
  | [some output, some warnings, some environment] =>
    return ⟨← output.text?, ← warnings.list? Warning.ofForm?, ← Environment.ofForm? environment⟩
  | _ => none

end Compiled

end BmakeZig
