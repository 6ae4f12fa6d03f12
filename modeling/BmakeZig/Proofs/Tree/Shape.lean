import BmakeZig.Source.Block

/-! The shapes of the nodes a unit is made of. A node plays a role in its parent, and the role fixes
its kind, the order of its children and what their spans may hold. Nothing is said here about where
a node stands in the source. -/
namespace BmakeZig

inductive Role where
  | name
  | expansion
  | piece
  | phrase (kind : Kind)
  | condition
  | target
  | entry
  | clause
  | body
  | statement

/-- The role of what a block depends on. -/
def Source.Directive.testRole : Source.Directive → Role
  | .ifHolds => .condition
  | .ifDefined | .ifUndefined => .name
  | _ => .phrase .path

/-- Whether the directive reports a message. -/
def Source.Directive.reports : Source.Directive → Bool
  | .error | .warn | .warning | .message => true
  | _ => false

inductive Shape : Role → Node → Prop where
  | name {line : Nat} {text : Text} (named : Text.isName text = true) :
      Shape .name (.leaf .identifier line text)
  | plain {mode : Mode} {line : Nat} {text opening closing : Text} {content : Node}
      (named : Shape .name content) :
      Shape .expansion
        (.branch (.expansion mode) line text [.token line opening, content, .token line closing])
  /-- An expansion with a modifier, which may stand in square brackets only. -/
  | modified {line : Nat} {text opening modifier closing : Text} {listed : List Node}
      (words : ∀ word ∈ listed, word.children = [] ∧ (word.kind = .identifier ∨ word.kind = .token)) :
      Shape .expansion (.branch (.expansion .immediate) line text
        (.token line opening :: .leaf .expansionMod line modifier :: listed ++
          [.token line closing]))
  | literal {line : Nat} {text : Text} : Shape .piece (.leaf .literal line text)
  | expanded {node : Node} (inner : Shape .expansion node) : Shape .piece node
  | phrase {kind : Kind} {line : Nat} {text : Text} {children : List Node}
      (oneLine : '\n' ∉ text) (pieces : ∀ child ∈ children, Shape .piece child)
      (cut : children = Source.pieces line text) :
      Shape (.phrase kind) (.branch kind line text children)
  | named {node : Node} (inner : Shape .name node) : Shape .condition node
  | string {line : Nat} {text : Text} : Shape .condition (.leaf .string line text)
  | expansion {node : Node} (inner : Shape .expansion node) : Shape .condition node
  | defined {line : Nat} {text word opening closing : Text} {target : Node}
      (inner : Shape .name target) :
      Shape .condition (.branch .isDefined line text
        [.token line word, .token line opening, target, .token line closing])
  | negated {line : Nat} {text operator : Text} {operand : Node} (inner : Shape .condition operand) :
      Shape .condition (.branch .not line text [.token line operator, operand])
  | joined {kind : Kind} {line : Nat} {text operator : Text} {left right : Node}
      (kinds : kind = .or ∨ kind = .and ∨ kind = .eq)
      (first : Shape .condition left) (second : Shape .condition right) :
      Shape .condition (.branch kind line text [left, .token line operator, right])
  | always {line : Nat} {text : Text} : Shape .target (.leaf .always line text)
  | declared {line : Nat} {text : Text} : Shape .target (.leaf .targetDecl line text)
  | remark {line : Nat} {text : Text} (oneLine : '\n' ∉ text) :
      Shape .entry (.leaf .comment line text)
  | command {line : Nat} {text : Text} {modifiers builtin : List Node} {argument : Node}
      (oneLine : '\n' ∉ text)
      (modifying : ∀ modifier ∈ modifiers, ∃ mark, modifier = .leaf .commandMod line mark)
      (building : builtin = [] ∨ ∃ word, Text.isName word = true ∧
        builtin = [.leaf .builtinCommand line ('~' :: word)])
      (inner : Shape (.phrase .command) argument) :
      Shape .entry (.branch .buildCommand line text (modifiers ++ builtin ++ [argument]))
  | elseIf {line : Nat} {text word : Text} {test inner : Node}
      (tested : Shape .condition test) (held : Shape .body inner) :
      Shape .clause (.branch .elifClause line text [.token line word, test, inner])
  | otherwise {line : Nat} {text word : Text} {inner : Node} (held : Shape .body inner) :
      Shape .clause (.branch .elseClause line text [.token line word, inner])
  | body {line : Nat} {text : Text} {children : List Node}
      (statements : ∀ child ∈ children, Shape .statement child) :
      Shape .body (.branch .body line text children)
  | comment {line : Nat} {text : Text} (oneLine : '\n' ∉ text) :
      Shape .statement (.leaf .comment line text)
  | error {line : Nat} {text : Text} : Shape .statement (.leaf .error line text)
  | assignment {appends expands : Bool} {line : Nat} {text operator : Text} {target value : Node}
      (assigned : Shape .name target) (valued : Shape (.phrase .value) value) :
      Shape .statement (.branch (.assignment appends expands) line text
        [target, .token line operator, value])
  | undef {line : Nat} {text word : Text} {target : Node} (dropped : Shape .name target) :
      Shape .statement (.branch .undef line text [.token line word, target])
  | diagnostic {directive : Source.Directive} {line : Nat} {text : Text} {message : Node}
      (reports : directive.reports = true) (said : Shape (.phrase .message) message) :
      Shape .statement (.branch .diagnostic line text [.token line directive.spelling, message])
  | located {kind : Kind} {line : Nat} {text word : Text} {path : Node}
      (kinds : kind = .inclusion ∨ kind = .search) (place : Shape (.phrase .path) path) :
      Shape .statement (.branch kind line text [.token line word, path])
  | rule {line bodyLine : Nat} {text colon bodyText : Text} {target : Node} {entries : List Node}
      (aimed : Shape .target target) (each : ∀ entry ∈ entries, Shape .entry entry) :
      Shape .statement (.branch .rule line text
        [target, .token line colon, .branch .ruleBody bodyLine bodyText entries])
  | conditional {directive : Source.Directive} {line last : Nat} {text ending : Text}
      {test inner : Node} {clauses : List Node} (opens : directive.opensBlock = true)
      (tested : Shape directive.testRole test) (held : Shape .body inner)
      (each : ∀ clause ∈ clauses, Shape .clause clause) :
      Shape .statement (.branch .conditional line text
        (.token line directive.spelling :: test :: inner :: clauses ++ [.token last ending]))

end BmakeZig
