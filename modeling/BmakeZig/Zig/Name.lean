import BmakeZig.Text.Basic

/-! String literals of Zig. Every control character is escaped, so a literal never leaves its
line. -/
namespace BmakeZig.Zig

def escape (c : Char) : Text :=
  match c with
  | '\\' => ['\\', '\\']
  | '"' => ['\\', '"']
  | '\n' => ['\\', 'n']
  | '\r' => ['\\', 'r']
  | '\t' => ['\\', 't']
  | c =>
    if Text.isControl c then "\\u\x7b".toList ++ Nat.toDigits 16 c.toNat ++ ['\x7d'] else [c]

def literal (text : Text) : Text :=
  '"' :: text.flatMap escape ++ ['"']

/-! Names of Zig. A name that would not be read as a plain identifier is written as a quoted one, so
every variable of a unit has a spelling, and different variables have different ones. -/

def keywords : List Text :=
  ["addrspace", "align", "allowzero", "and", "anyframe", "anytype", "asm", "async", "await", "break",
    "callconv", "catch", "comptime", "const", "continue", "defer", "else", "enum", "errdefer",
    "error", "export", "extern", "fn", "for", "if", "inline", "linksection", "noalias", "noinline",
    "nosuspend", "opaque", "or", "orelse", "packed", "pub", "resume", "return", "struct", "suspend",
    "switch", "test", "threadlocal", "try", "union", "unreachable", "usingnamespace", "var",
    "volatile", "while"].map String.toList

def primitives : List Text :=
  ["anyerror", "anyopaque", "bool", "comptime_float", "comptime_int", "false", "isize", "noreturn",
    "null", "true", "type", "undefined", "usize", "void"].map String.toList

/-- An integer or floating-point type of some width, such as `u8`. -/
def isSizedType : Text → Bool
  | c :: digits => (c == 'i' || c == 'u' || c == 'f') && !digits.isEmpty && digits.all Char.isDigit
  | [] => false

/-- A name that Zig gives a meaning of its own. The names of C types start with `c_`. -/
def isPrimitive (name : Text) : Bool :=
  primitives.contains name || ['c', '_'].isPrefixOf name || isSizedType name

def isBare (name : Text) : Bool :=
  Text.isName name && name != ['_'] && !keywords.contains name && !isPrimitive name

def identifier (name : Text) : Text :=
  if isBare name then name else '@' :: literal name

/-- The variable of the program that stands for a variable of the unit. -/
def variableNamed (name : Text) : Text :=
  "vars.".toList ++ identifier name

end BmakeZig.Zig
