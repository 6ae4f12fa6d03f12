import BmakeZig.Value.Fragment

/-! The productions of the bmake grammar. A reader of some other making may hand over nodes of a
production that has no rule here; these keep their name in `other`. -/
namespace BmakeZig

inductive Kind where
  | sourceFile
  | body
  | conditional
  | elifClause
  | elseClause
  | diagnostic
  | comment
  | identifier
  | string
  | not
  | and
  | or
  | eq
  | isDefined
  /-- An assignment, told apart by whether it appends and whether it expands its value at once. -/
  | assignment (appends expands : Bool)
  | expansion (mode : Mode)
  | expansionMod
  | value
  | literal
  | message
  | rule
  | always
  | targetDecl
  | ruleBody
  | buildCommand
  | commandMod
  | builtinCommand
  | command
  | inclusion
  | search
  | undef
  | path
  | error
  | token
  | other (name : Text)
deriving DecidableEq, Repr

namespace Kind

/-- The production's name in the grammar. -/
def name : Kind → Text
  | .sourceFile => "source_file".toList
  | .body => "body".toList
  | .conditional => "if".toList
  | .elifClause => "elif_clause".toList
  | .elseClause => "else_clause".toList
  | .diagnostic => "diagnostic".toList
  | .comment => "comment".toList
  | .identifier => "identifier".toList
  | .string => "string".toList
  | .not => "not".toList
  | .and => "and".toList
  | .or => "or".toList
  | .eq => "eq".toList
  | .isDefined => "is_defined".toList
  | .assignment false false => "assign".toList
  | .assignment true false => "append_assign".toList
  | .assignment false true => "expanding_assign".toList
  | .assignment true true => "append_expanding_assign".toList
  | .expansion .recursive => "recursive_expand".toList
  | .expansion .stripping => "recursive_expand_strip_trailing_slash".toList
  | .expansion .immediate => "non_recursive_expand".toList
  | .expansionMod => "expansion_mod".toList
  | .value => "value".toList
  | .literal => "literal".toList
  | .message => "message".toList
  | .rule => "rule".toList
  | .always => "always".toList
  | .targetDecl => "target_decl".toList
  | .ruleBody => "rule_body".toList
  | .buildCommand => "build_command".toList
  | .commandMod => "command_mod".toList
  | .builtinCommand => "builtin_command".toList
  | .command => "command".toList
  | .inclusion => "include".toList
  | .search => "search".toList
  | .undef => "undef".toList
  | .path => "path".toList
  | .error => "ERROR".toList
  | .token => "token".toList
  | .other name => name

/-- Every production that has a name of its own here. -/
def known : List Kind :=
  [.sourceFile, .body, .conditional, .elifClause, .elseClause, .diagnostic, .comment, .identifier,
    .string, .not, .and, .or, .eq, .isDefined, .assignment false false, .assignment true false,
    .assignment false true, .assignment true true, .expansion .recursive, .expansion .stripping,
    .expansion .immediate, .expansionMod, .value, .literal, .message, .rule, .always, .targetDecl,
    .ruleBody, .buildCommand, .commandMod, .builtinCommand, .command, .inclusion, .search, .undef,
    .path, .error, .token]

/-- The production of a name. The rest of a line counts as a value. -/
def ofName (name : Text) : Kind :=
  if name = "restOfLine".toList then .value
  else (known.find? fun kind => kind.name = name).getD (.other name)

end Kind

/-! Nodes of a bmake tree. A node holds the span of the source that it covers, the line on which the
span starts, and its children in source order. Keywords and punctuation are unnamed nodes. -/

structure Node where
  kind : Kind
  named : Bool
  line : Nat
  text : Text
  children : List Node
deriving Repr

namespace Node

def leaf (kind : Kind) (line : Nat) (text : Text) : Node :=
  ⟨kind, true, line, text, []⟩

def branch (kind : Kind) (line : Nat) (text : Text) (children : List Node) : Node :=
  ⟨kind, true, line, text, children⟩

def token (line : Nat) (text : Text) : Node :=
  ⟨.token, false, line, text, []⟩

def child? (node : Node) (index : Nat) : Option Node :=
  node.children[index]?

def namedChildren (node : Node) : List Node :=
  node.children.filter (·.named)

def namedChild? (node : Node) (index : Nat) : Option Node :=
  node.namedChildren[index]?

/-- The first named child of a kind. -/
def find? (node : Node) (kind : Kind) : Option Node :=
  node.namedChildren.find? fun child => child.kind = kind

end Node

end BmakeZig
