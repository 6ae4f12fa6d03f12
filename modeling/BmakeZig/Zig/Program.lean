import BmakeZig.Zig.Name

/-! Blocks, and the banner around source text that could not be read. -/
namespace BmakeZig.Zig

/-- The line one level further in; an empty line stays empty. -/
def indentLine (line : Text) : Text :=
  if line.isEmpty then [] else "    ".toList ++ line

def indent (text : Text) : Text :=
  Text.joinWith ['\n'] ((Text.lines text).map indentLine)

/-- The body one level further in between braces, or nothing between them if it is blank. -/
def block (body : Text) : Text :=
  if body.all Text.isBlank then ['\x7b', '\x7d']
  else ['\x7b', '\n'] ++ indent body ++ ['\n', '\x7d']

/-- The span as comments between a begin and an end banner. -/
def unreadSpan (text : Text) (line : Nat) : Text :=
  "// ==== begin malformed bmake (line ".toList ++ Text.ofNat line ++ ") ====".toList ++
    ((Text.lines text).flatMap fun source => "\n// | ".toList ++ source) ++
    "\n// ==== end malformed bmake ====".toList

/-! The expressions and calls of the emitted program. -/

def concat (parts : List Text) : Text :=
  "try std.mem.concat(gpa, u8, &.\x7b ".toList ++ Text.joinWith [',', ' '] parts ++
    " \x7d)".toList

/-- The text of several expressions one after the other. -/
def sequence : List Text → Text
  | [] => literal []
  | [part] => part
  | parts => concat parts

def processVariable (name : Text) : Text :=
  "std.posix.getenv(".toList ++ literal name ++ ")".toList

def processVariableOrEmpty (name : Text) : Text :=
  "(".toList ++ processVariable name ++ " orelse \"\")".toList

def withoutEndSlashes (expression : Text) : Text :=
  "std.mem.trimRight(u8, ".toList ++ expression ++ ", \"/\")".toList

def isSet (name : Text) : Text :=
  "(".toList ++ processVariable name ++ " != null)".toList

def isUnset (name : Text) : Text :=
  "(".toList ++ processVariable name ++ " == null)".toList

def fileExists (path : Text) : Text :=
  "(if (std.fs.cwd().access(".toList ++ path ++ ", .\x7b\x7d)) |_| true else |_| false)".toList

def equal (left right : Text) : Text :=
  "std.mem.eql(u8, ".toList ++ left ++ ", ".toList ++ right ++ ")".toList

def set (name value : Text) : Text :=
  variableNamed name ++ " = ".toList ++ value ++ ";".toList

/-- Prints one text with `format`, which is written as it stands in a literal. -/
def print (format argument : Text) : Text :=
  "std.debug.print(\"".toList ++ format ++ "\", .\x7b".toList ++ argument ++ "\x7d);".toList

def run (command : Text) (echo check : Bool) : Text :=
  let flag (holds : Bool) : Text := if holds then "true".toList else "false".toList
  "try run(".toList ++ command ++ ", ".toList ++ flag echo ++ ", ".toList ++ flag check ++
    ");".toList

/-- Registers a step of the build whose make function runs `body`. -/
def buildStep (name body : Text) : Text :=
  let make := "fn make(_: *std.Build.Step, _: std.Build.Step.MakeOptions) anyerror!void ".toList ++
    block body
  block <|
    "const step = b.step(".toList ++ literal name ++ ", ".toList ++
      literal ("bmake rule ".toList ++ name) ++ ");\nstep.makeFn = struct ".toList ++ block make ++
      ".make;".toList

/-! The complete build script around the statements of a unit. -/

private def ofLines (lines : List String) : Text :=
  Text.joinWith ['\n'] (lines.map String.toList)

def header : Text :=
  ofLines ["const std = @import(\"std\");", "", "const gpa = std.heap.page_allocator;"]

/-- The function that runs one shell command. -/
def runHelper : Text :=
  ofLines
    ["fn run(command: []const u8, echo: bool, check: bool) !void \x7b",
      "    if (echo) std.debug.print(\"\x7bs\x7d\\n\", .\x7bcommand\x7d);",
      "    var child = std.process.Child.init(&.\x7b \"sh\", \"-c\", command \x7d, gpa);",
      "    const term = try child.spawnAndWait();",
      "    if (!check) return;",
      "    switch (term) \x7b",
      "        .Exited => |code| if (code != 0) return error.CommandFailed,",
      "        else => return error.CommandFailed,",
      "    \x7d",
      "\x7d"]

/-- The declaration of a variable with the value it starts with. -/
def declaration (name value : Text) : Text :=
  "pub var ".toList ++ identifier name ++ ": []const u8 = ".toList ++ literal value ++ ";".toList

/-- The script. A build that registers no step has to discard its argument. -/
def program (body : Text) (initial : List (Text × Text)) (usesBuilder : Bool) : Text :=
  let declarations := Text.joinWith ['\n'] (initial.map fun entry => declaration entry.1 entry.2)
  let statements := if usesBuilder then body else "_ = b;\n".toList ++ body
  header ++ "\n\nconst vars = struct ".toList ++ block declarations ++ ";\n\n".toList ++ runHelper ++
    "\n\npub fn build(b: *std.Build) !void ".toList ++ block statements ++ "\n".toList

end BmakeZig.Zig
