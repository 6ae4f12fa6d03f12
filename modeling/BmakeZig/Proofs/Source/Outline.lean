import BmakeZig.Proofs.Source.Sentence
import BmakeZig.Source.Unit

/-! Units as they are meant, apart from any spelling: `print` writes one down, and `ofTree?` takes one
from a tree. Every word and text carries what makes it writable, so a unit that cannot be written
at all is not a value here. -/
namespace BmakeZig.Outline

open Source (Directive Level)

/-- The value with the proof that it is of a kind, if it is. -/
def check? {α : Type} (p : α → Prop) [DecidablePred p] (value : α) : Option (Subtype p) :=
  if holds : p value then some ⟨value, holds⟩ else none

/-- Text that stands on one line, without blanks at either end. -/
def Clean (text : Text) : Prop :=
  '\n' ∉ text ∧ Text.trimStart text = text ∧ Text.trimEnd text = text

instance : DecidablePred Clean :=
  fun _ => inferInstanceAs (Decidable (_ ∧ _ ∧ _))

abbrev Name := { text : Text // Text.isName text = true }

abbrev Line := { text : Text // Clean text }

abbrev Place := { text : Text // Clean text ∧ text ≠ [] }

abbrev Remark := { text : Text // Clean text ∧ text.head? = some '#' }

/-- What stands between the quotes of a string. -/
abbrev Quoted := { text : Text // '"' ∉ text ∧ '\n' ∉ text }

/-- A target that starts with a dot. -/
abbrev Declaration := { text : Text // text.head? = some '.' ∧
  text.all (fun c => !Text.isBlank c && c != ':' && c != '=') = true }

abbrev Marks := { text : Text // text.all Source.isModifier = true }

/-! Conditions. -/

inductive Condition where
  | name (word : Name)
  | string (inside : Quoted)
  | expansion (mode : Mode) (target : Name)
  | modified (modifier first : Name) (others : List Name)
  | defined (target : Name)
  | not (inner : Condition)
  | eq (left right : Condition)
  | and (left right : Condition)
  | or (left right : Condition)

namespace Condition

/-- How tightly the outermost operator binds. -/
def level : Condition → Level
  | .or .. => .or
  | .and .. => .and
  | .eq .. => .eq
  | .not _ => .not
  | _ => .primary

/-- Brackets around an operand that binds less tightly than its place asks for. -/
def enclose (needed own : Level) (text : Text) : Text :=
  if needed.rank ≤ own.rank then text else '(' :: text ++ [')']

def nameList (names : List Name) : Text :=
  names.flatMap fun name => [',', ' '] ++ name.1

def definedWord : Text :=
  "defined".toList

/-- What stands between two operands. -/
def between (operator : Text) : Text :=
  ' ' :: operator ++ [' ']

def print : Condition → Text
  | .name word => word.1
  | .string inside => '"' :: inside.1 ++ ['"']
  | .expansion mode target => '$' :: mode.opening :: target.1 ++ [mode.closing]
  | .modified modifier first others =>
    ['$', '[', '@'] ++ modifier.1 ++ ' ' :: first.1 ++ nameList others ++ [']']
  | .defined target => definedWord ++ '(' :: target.1 ++ [')']
  | .not inner => '!' :: enclose .not inner.level inner.print
  | .eq left right =>
    enclose .not left.level left.print ++ between ['=', '='] ++
      enclose .not right.level right.print
  | .and left right =>
    enclose .and left.level left.print ++ between ['&', '&'] ++
      enclose .eq right.level right.print
  | .or left right =>
    enclose .or left.level left.print ++ between ['|', '|'] ++
      enclose .and right.level right.print

/-- The names among the nodes of a list. -/
def names? : List Node → Option (List Name)
  | [] => some []
  | node :: rest =>
    if node.kind = .identifier then do
      let name ← check? _ node.text
      let others ← names? rest
      return name :: others
    else names? rest

/-- The condition a node stands for. -/
def ofNode? : Node → Option Condition
  | ⟨.identifier, _, _, text, _⟩ => (check? _ text).map .name
  | ⟨.string, _, _, '"' :: text, _⟩ =>
    if text.getLast? = some '"' then (check? _ text.dropLast).map .string else none
  | ⟨.expansion _, _, _, _, _ :: ⟨.expansionMod, _, _, '@' :: modifier, _⟩ :: listed⟩ => do
    let modifier ← check? _ modifier
    match ← names? listed with
    | [] => none
    | first :: others => return .modified modifier first others
  | ⟨.expansion mode, _, _, _, [_, ⟨.identifier, _, _, target, _⟩, _]⟩ =>
    (check? _ target).map (.expansion mode)
  | ⟨.isDefined, _, _, _, [_, _, ⟨.identifier, _, _, target, _⟩, _]⟩ =>
    (check? _ target).map .defined
  | ⟨.not, _, _, _, [_, inner]⟩ => (ofNode? inner).map .not
  | ⟨.eq, _, _, _, [left, _, right]⟩ => do return .eq (← ofNode? left) (← ofNode? right)
  | ⟨.and, _, _, _, [left, _, right]⟩ => do return .and (← ofNode? left) (← ofNode? right)
  | ⟨.or, _, _, _, [left, _, right]⟩ => do return .or (← ofNode? left) (← ofNode? right)
  | _ => none

end Condition

/-! Rules. -/

inductive Target where
  | always
  | declared (declaration : Declaration)

def Target.print : Target → Text
  | .always => Source.alwaysTarget
  | .declared declaration => declaration.1

def Target.ofNode? : Node → Option Target
  | ⟨.always, _, _, _, _⟩ => some .always
  | ⟨.targetDecl, _, _, text, _⟩ => (check? _ text).map .declared
  | _ => none

/-- A command line. Its argument is written right behind the marks, or behind a blank if a built-in
command is named. -/
structure CommandLine where
  marks : Marks
  builtin : Option Name
  argument : Line

/-- The argument does not itself read as a mark, as a built-in command or, with nothing in front, as
a comment. -/
def CommandLine.Plain (line : CommandLine) : Prop :=
  line.builtin = none →
    line.argument.1.head?.all (!Source.isModifier ·) = true ∧
    Source.builtin? line.argument.1 = none ∧
    (line.marks.1 = [] → line.argument.1.head? ≠ some '#')

instance : DecidablePred CommandLine.Plain :=
  fun _ => inferInstanceAs (Decidable (_ = none → _ ∧ _ ∧ (_ → _)))

abbrev Command := { line : CommandLine // line.Plain }

/-- What stands behind the marks. -/
def CommandLine.behindMarks (line : CommandLine) : Text :=
  (match line.builtin with
    | some name => '~' :: name.1 ++ [' ']
    | none => []) ++ line.argument.1

def Command.print (command : Command) : Text :=
  command.1.marks.1 ++ command.1.behindMarks

def Command.ofNodes? (children : List Node) : Option Command :=
  let isMark : Node → Bool := fun child => child.kind = .commandMod
  match children.dropWhile isMark with
  | [⟨.command, _, _, text, _⟩] => do
    let marks ← check? _ ((children.takeWhile isMark).flatMap (·.text))
    check? _ ⟨marks, none, ← check? _ text⟩
  | [⟨.builtinCommand, _, _, '~' :: word, _⟩, ⟨.command, _, _, text, _⟩] => do
    let marks ← check? _ ((children.takeWhile isMark).flatMap (·.text))
    check? _ ⟨marks, some (← check? _ word), ← check? _ text⟩
  | _ => none

inductive Entry where
  | remark (text : Remark)
  | command (line : Command)

namespace Entry

def print : Entry → Text
  | .remark text => text.1
  | .command line => line.print

/-- An entry is indented by a tab. -/
def line (entry : Entry) : Text :=
  '\t' :: entry.print ++ ['\n']

def ofNode? : Node → Option Entry
  | ⟨.comment, _, _, text, _⟩ => (check? _ text).map .remark
  | ⟨.buildCommand, _, _, _, children⟩ => (Command.ofNodes? children).map .command
  | _ => none

/-- A command line on which there is something. -/
def Filled : Entry → Prop
  | .remark _ => True
  | .command line => line.print ≠ []

end Entry

/-! Statements. -/

/-- The operators of assignments. -/
inductive Sign where
  | set
  | add
  | addEquals
  | setAtOnce
  | addAtOnce
deriving DecidableEq

namespace Sign

def spelling : Sign → Text
  | .set => ['=']
  | .add => ['+']
  | .addEquals => ['+', '=']
  | .setAtOnce => ['=', '%']
  | .addAtOnce => ['+', '%']

def appends : Sign → Bool
  | .set | .setAtOnce => false
  | .add | .addEquals | .addAtOnce => true

def expands : Sign → Bool
  | .set | .add | .addEquals => false
  | .setAtOnce | .addAtOnce => true

def all : List Sign :=
  [.set, .add, .addEquals, .setAtOnce, .addAtOnce]

/-- The operator of an assignment, if its spelling says what the assignment does. -/
def ofText? (appends expands : Bool) (text : Text) : Option Sign :=
  all.find? fun sign =>
    sign.spelling = text && sign.appends == appends && sign.expands == expands

end Sign

/-- The directives that report a message. -/
inductive Report where
  | error
  | warn
  | warning
  | message
deriving DecidableEq

namespace Report

def directive : Report → Directive
  | .error => .error
  | .warn => .warn
  | .warning => .warning
  | .message => .message

def ofText? (text : Text) : Option Report :=
  [error, warn, warning, message].find? fun report => report.directive.spelling = text

end Report

/-- What a block depends on. -/
inductive Test where
  | holds (condition : Condition)
  | isDefined (target : Name)
  | isUndefined (target : Name)
  | isFile (path : Place)
  | isNoFile (path : Place)

namespace Test

def directive : Test → Directive
  | .holds _ => .ifHolds
  | .isDefined _ => .ifDefined
  | .isUndefined _ => .ifUndefined
  | .isFile _ => .ifFile
  | .isNoFile _ => .ifNoFile

def argument : Test → Text
  | .holds condition => condition.print
  | .isDefined target | .isUndefined target => target.1
  | .isFile path | .isNoFile path => path.1

/-- The test that the keyword of a block makes of a node. -/
def ofNode? (keyword : Text) (node : Node) : Option Test :=
  if keyword = Directive.ifHolds.spelling then (Condition.ofNode? node).map .holds
  else if keyword = Directive.ifDefined.spelling then (check? _ node.text).map .isDefined
  else if keyword = Directive.ifUndefined.spelling then (check? _ node.text).map .isUndefined
  else if keyword = Directive.ifFile.spelling then (check? _ node.text).map .isFile
  else if keyword = Directive.ifNoFile.spelling then (check? _ node.text).map .isNoFile
  else none

end Test

mutual

inductive Statement where
  | remark (text : Remark)
  | assignment (target : Name) (sign : Sign) (value : Line)
  | undef (target : Name)
  | inclusion (path : Place)
  | search (path : Place)
  | report (report : Report) (message : Line)
  | rule (target : Target) (entries : List Entry)
  | conditional (test : Test) (body : List Statement) (clauses : Clauses)

/-- What follows the body of a block: further tests with their bodies, and at most one body for when
all of them fail. -/
inductive Clauses where
  | done
  | otherwise (body : List Statement)
  | elseIf (condition : Condition) (body : List Statement) (rest : Clauses)

end

/-- The line of a directive with its argument. -/
def written (directive : Directive) (argument : Text) : Text :=
  directive.spelling ++ ' ' :: argument ++ ['\n']

/-- The line of a directive that takes no argument. -/
def alone (directive : Directive) : Text :=
  directive.spelling ++ ['\n']

mutual

/-- One statement to a line, with one blank between its words. -/
def Statement.print : Statement → Text
  | .remark text => text.1 ++ ['\n']
  | .assignment target sign value =>
    target.1 ++ ' ' :: sign.spelling ++ ' ' :: value.1 ++ ['\n']
  | .undef target => written .undef target.1
  | .inclusion path => written .inclusion path.1
  | .search path => written .search path.1
  | .report report message => written report.directive message.1
  | .rule target entries => target.print ++ ':' :: '\n' :: entries.flatMap Entry.line
  | .conditional test body clauses =>
    written test.directive test.argument ++ print body ++ clauses.print

def Clauses.print : Clauses → Text
  | .done => alone .endIf
  | .otherwise body => alone .otherwise ++ print body ++ alone .endIf
  | .elseIf condition body rest => written .elseIf condition.print ++ print body ++ rest.print

/-- A unit, one statement below the other. -/
def print : List Statement → Text
  | [] => []
  | statement :: rest => statement.print ++ print rest

end

mutual

/-- No command line of the statement is empty. -/
def Statement.Filled : Statement → Prop
  | .rule _ entries => ∀ entry ∈ entries, entry.Filled
  | .conditional _ body clauses => AllFilled body ∧ clauses.Filled
  | _ => True

def Clauses.Filled : Clauses → Prop
  | .done => True
  | .otherwise body => AllFilled body
  | .elseIf _ body rest => AllFilled body ∧ rest.Filled

def AllFilled : List Statement → Prop
  | [] => True
  | statement :: rest => statement.Filled ∧ AllFilled rest

end

mutual

/-- The statement a node stands for. Nothing is taken from an unread span. -/
def Statement.ofNode? : Node → Option Statement
  | ⟨.comment, _, _, text, _⟩ => (check? _ text).map .remark
  | ⟨.assignment appends expands, _, _, _, [⟨.identifier, _, _, name, _⟩,
      ⟨.token, _, _, sign, _⟩, ⟨.value, _, _, value, _⟩]⟩ => do
    return .assignment (← check? _ name) (← Sign.ofText? appends expands sign) (← check? _ value)
  | ⟨.undef, _, _, _, [_, ⟨.identifier, _, _, name, _⟩]⟩ => (check? _ name).map .undef
  | ⟨.inclusion, _, _, _, [_, ⟨.path, _, _, path, _⟩]⟩ => (check? _ path).map .inclusion
  | ⟨.search, _, _, _, [_, ⟨.path, _, _, path, _⟩]⟩ => (check? _ path).map .search
  | ⟨.diagnostic, _, _, _, [⟨.token, _, _, word, _⟩, ⟨.message, _, _, message, _⟩]⟩ => do
    return .report (← Report.ofText? word) (← check? _ message)
  | ⟨.rule, _, _, _, [target, _, ⟨.ruleBody, _, _, _, entries⟩]⟩ => do
    return .rule (← Target.ofNode? target) (← entries.mapM Entry.ofNode?)
  | ⟨.conditional, _, _, _, ⟨.token, _, _, keyword, _⟩ :: test :: ⟨.body, _, _, _, body⟩ :: clauses⟩ => do
    return .conditional (← Test.ofNode? keyword test) (← ofNodes? body) (← Clauses.ofNodes? clauses)
  | _ => none

def Clauses.ofNodes? : List Node → Option Clauses
  | [⟨.token, _, _, word, _⟩] => if word = Directive.endIf.spelling then some .done else none
  | [⟨.elseClause, _, _, _, [_, ⟨.body, _, _, _, body⟩]⟩, ⟨.token, _, _, word, _⟩] =>
    if word = Directive.endIf.spelling then (ofNodes? body).map .otherwise else none
  | ⟨.elifClause, _, _, _, [_, test, ⟨.body, _, _, _, body⟩]⟩ :: rest => do
    return .elseIf (← Condition.ofNode? test) (← ofNodes? body) (← Clauses.ofNodes? rest)
  | _ => none

/-- The statements that a list of nodes stands for. -/
def ofNodes? : List Node → Option (List Statement)
  | [] => some []
  | node :: rest => do return (← Statement.ofNode? node) :: (← ofNodes? rest)

end

/-- The unit a tree stands for. -/
def ofTree? : Node → Option (List Statement)
  | ⟨.sourceFile, _, _, _, children⟩ => ofNodes? children
  | _ => none

end BmakeZig.Outline
