import BmakeZig.Text.Basic

/-! The record a pass keeps of what it did. Every note is a cause with its particulars; `level` and
`message` say how it is reported. -/
namespace BmakeZig

/-- A problem that a pass goes on after. -/
structure Warning where
  line : Nat
  message : Text
deriving DecidableEq, Repr

def Warning.toText (warning : Warning) : Text :=
  "line ".toList ++ Text.ofNat warning.line ++ ": ".toList ++ warning.message

inductive Note.Level where
  | trace
  | debug
  | warn
deriving DecidableEq, Repr

def Note.Level.label : Note.Level → Text
  | .trace => "TRACE".toList
  | .debug => "DEBUG".toList
  | .warn => "WARN".toList

inductive Note where
  | assigned (name value : Text)
  | appended (name value result : Text)
  /-- A reference to a variable that is being expanded already. -/
  | selfReference (name : Text)
  /-- A stored value refers to a variable that is not bound. -/
  | unboundReference (name : Text)
  | unboundImmediate (line : Nat) (name : Text)
  | unboundFrozen (line : Nat) (name : Text)
  /-- A path refers to a variable that neither the unit nor the process environment sets. -/
  | unsetInPath (name : Text)
  | searchAdded (line : Nat) (directory : Text)
  | unusable (path reason : Text)
  | including (line : Nat) (path : Text) (depth : Nat)
  | warned (warning : Warning)
deriving DecidableEq, Repr

namespace Note

def level : Note → Level
  | .assigned .. | .appended .. => .trace
  | .selfReference _ | .warned _ => .warn
  | _ => .debug

private def atLine (line : Nat) : Text :=
  "line ".toList ++ Text.ofNat line ++ ": ".toList

private def quotedName (name : Text) : Text :=
  '\'' :: name ++ ['\'']

def message : Note → Text
  | .assigned name value => name ++ " = ".toList ++ Text.Quoted.encode value
  | .appended name value result =>
    name ++ " += ".toList ++ Text.Quoted.encode value ++ " -> ".toList ++ Text.Quoted.encode result
  | .selfReference name =>
    "variable ".toList ++ quotedName name ++ " refers to itself; expanding to nothing".toList
  | .unboundReference name => quotedName name ++ " is not bound; expanding to nothing".toList
  | .unboundImmediate line name =>
    atLine line ++ "$[".toList ++ name ++ "] is not bound, expanding to nothing".toList
  | .unboundFrozen line name =>
    atLine line ++ quotedName name ++ " is not bound, freezing it as empty".toList
  | .unsetInPath name => quotedName name ++ " is not set, expanding to nothing".toList
  | .searchAdded line directory =>
    atLine line ++ "adding include search directory ".toList ++ directory
  | .unusable path reason => path ++ " not usable: ".toList ++ reason
  | .including line path depth =>
    atLine line ++ "including ".toList ++ path ++ " at depth ".toList ++ Text.ofNat depth
  | .warned warning => warning.toText

def toText (note : Note) : Text :=
  note.level.label ++ ' ' :: note.message

end Note

/-- A value together with the notes taken on the way to it. -/
structure Noted (α : Type) where
  value : α
  notes : List Note := []
deriving DecidableEq, Repr

namespace Noted

def map (f : α → β) (noted : Noted α) : Noted β :=
  ⟨f noted.value, noted.notes⟩

/-- Does the same for every member of a list, in order. -/
def each (f : α → Noted β) (list : List α) : Noted (List β) :=
  let all := list.map f
  ⟨all.map (·.value), all.flatMap (·.notes)⟩

end Noted

end BmakeZig
