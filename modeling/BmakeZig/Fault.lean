import BmakeZig.Text.Basic

/-! The causes that end a pass, and the one place where they are put into words. -/
namespace BmakeZig

inductive Fault where
  /-- A named node of a kind that has no rule where it stands. -/
  | unknownKind (kind : Text) (line : Nat)
  | unknownMarker (marker : Text) (line : Nat)
  /-- A node that lacks a child its rule needs. -/
  | malformed (kind : Text) (line : Nat) (expected : Text)
  | unitNotFound (path reason : Text)
  /-- The units from the outermost to the one that is already open. -/
  | inclusionCycle (chain : List Text)
  | depthExceeded (path : Text) (depth : Nat)
  | unreadable (path message : Text)
deriving DecidableEq, Repr

def Fault.message : Fault → Text
  | .unknownKind kind line =>
    "Unknown node kind '".toList ++ kind ++ "' at line ".toList ++ Text.ofNat line
  | .unknownMarker marker line =>
    "Unknown diagnostic marker '".toList ++ marker ++ "' at line ".toList ++ Text.ofNat line
  | .malformed kind line expected =>
    "Malformed '".toList ++ kind ++ "' node at line ".toList ++ Text.ofNat line ++
      ": expected ".toList ++ expected
  | .unitNotFound path reason =>
    "Include not found: ".toList ++ path ++ " (".toList ++ reason ++ ")".toList
  | .inclusionCycle chain => "Include cycle: ".toList ++ Text.joinWith " -> ".toList chain
  | .depthExceeded path depth =>
    "Include depth ".toList ++ Text.ofNat depth ++ " exceeded while including ".toList ++ path
  | .unreadable path message => "Failed to read ".toList ++ path ++ ": ".toList ++ message

/-! Diagnostic directives. Each marker has one call of the program with a place for the message. -/

inductive Marker where
  | error
  | warning
  | message
deriving DecidableEq, Repr

namespace Marker

/-- The marker a directive names, with or without percent signs in front. -/
def ofDirective? (directive : Text) : Option Marker :=
  let word := (Text.trim directive).dropWhile (· == '%')
  if word = "error".toList then some .error
  else if word = "warn".toList ∨ word = "warning".toList then some .warning
  else if word = "message".toList then some .message
  else none

def head : Marker → Text
  | .error => "std.debug.panic(\"Error occurred: \x7bs\x7d\", .\x7b".toList
  | .warning => "std.log.warn(\"\x7bs\x7d\", .\x7b".toList
  | .message => "std.debug.print(\"\x7bs\x7d\\n\", .\x7b".toList

/-- The call that reports `message`, an expression of the program. -/
def call (marker : Marker) (message : Text) : Text :=
  marker.head ++ message ++ "\x7d);".toList

end Marker

/-- The call for the marker a directive names. -/
def diagnose (directive message : Text) (line : Nat) : Except Fault Text :=
  match Marker.ofDirective? directive with
  | some marker => .ok (marker.call message)
  | none => .error (.unknownMarker directive line)

end BmakeZig
