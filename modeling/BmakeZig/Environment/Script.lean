import BmakeZig.Environment.Expand

/-! Requests to an environment one at a time, with the answer and the notes of each. -/
namespace BmakeZig.Environment

inductive Request where
  | assign (name value : Text)
  | append (name value separator : Text)
  | undefine (name : Text)
  | get (name : Text)
  | contains (name : Text)
  | expand (name : Text)
  | size
  | isEmpty
  | dump

inductive Answer where
  | text (found : Option Text)
  | flag (holds : Bool)
  | count (n : Nat)
  | environment (state : Environment)

/-- The answer, the environment afterwards, and the notes taken. -/
structure Response where
  answer : Answer
  state : Environment
  notes : List Note

/-- What the assignment of a value is noted as. -/
def noteAssign (name value : Text) : Note :=
  .assigned name value

def noteAppend (before : Environment) (name value separator : Text) : Note :=
  .appended name value (appended ((before.get? name).getD []) value separator)

def respond (environment : Environment) : Request → Response
  | .assign name value =>
    ⟨.text (environment.get? name), environment.assign name value, [noteAssign name value]⟩
  | .append name value separator =>
    let after := environment.append name value separator
    ⟨.text (after.get? name), after, [noteAppend environment name value separator]⟩
  | .undefine name => ⟨.text (environment.get? name), environment.undefine name, []⟩
  | .get name => ⟨.text (environment.get? name), environment, []⟩
  | .contains name => ⟨.flag (environment.contains name), environment, []⟩
  | .expand name =>
    match environment.expand? name with
    | none => ⟨.text none, environment, []⟩
    | some expanded => ⟨.text (some expanded.value), environment, expanded.notes⟩
  | .size => ⟨.count environment.size, environment, []⟩
  | .isEmpty => ⟨.flag (environment.size == 0), environment, []⟩
  | .dump => ⟨.environment environment, environment, []⟩

/-- The responses to a list of requests, each made in the state the last one left. -/
def respondAll (environment : Environment) : List Request → List Response
  | [] => []
  | request :: rest =>
    let response := environment.respond request
    response :: respondAll response.state rest

end BmakeZig.Environment
