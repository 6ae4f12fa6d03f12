import BmakeZig.Text.Basic

/-! The words that a percent sign makes into a directive. A longer or an unknown word is none. -/
namespace BmakeZig.Source

inductive Directive where
  | ifHolds
  | ifDefined
  | ifUndefined
  | ifFile
  | ifNoFile
  | elseIf
  | otherwise
  | endIf
  | error
  | warn
  | warning
  | message
  | inclusion
  | search
  | undef
deriving DecidableEq, Repr

namespace Directive

def word : Directive → Text
  | .ifHolds => "if".toList
  | .ifDefined => "ifdef".toList
  | .ifUndefined => "ifndef".toList
  | .ifFile => "iffile".toList
  | .ifNoFile => "ifnofile".toList
  | .elseIf => "elif".toList
  | .otherwise => "else".toList
  | .endIf => "endif".toList
  | .error => "error".toList
  | .warn => "warn".toList
  | .warning => "warning".toList
  | .message => "message".toList
  | .inclusion => "include".toList
  | .search => "search".toList
  | .undef => "undef".toList

def spelling (directive : Directive) : Text :=
  '%' :: directive.word

def all : List Directive :=
  [.ifHolds, .ifDefined, .ifUndefined, .ifFile, .ifNoFile, .elseIf, .otherwise, .endIf, .error,
    .warn, .warning, .message, .inclusion, .search, .undef]

/-- Whether the directive opens a block that an `endIf` closes. -/
def opensBlock : Directive → Bool
  | .ifHolds | .ifDefined | .ifUndefined | .ifFile | .ifNoFile => true
  | _ => false

def ofWord? (word : Text) : Option Directive :=
  all.find? fun directive => directive.word = word

/-- The directive that the text starts with. -/
def at? : Text → Option Directive
  | '%' :: text => (Text.name? text).bind fun found => ofWord? found.1
  | _ => none

/-- What follows the directive on its line, from its first word on. -/
def argument (directive : Directive) (here : Text) : Text :=
  here.drop directive.spelling.length

end Directive

end BmakeZig.Source
