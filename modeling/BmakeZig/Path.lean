import BmakeZig.Text.Basic

/-! Paths as steps from a starting folder. Empty components and single dots do not count, so a path
is whether it starts at the root, and a list of names and steps up. -/
namespace BmakeZig

inductive Path.Step where
  | up
  | name (text : Text)
deriving DecidableEq, Repr

structure Path where
  absolute : Bool
  steps : List Path.Step
deriving DecidableEq, Repr

namespace Path

def Step.toText : Step → Text
  | .up => ['.', '.']
  | .name text => text

/-- The step a component makes, if it makes one. -/
def Step.ofComponent? (component : Text) : Option Step :=
  if component = [] || component = ['.'] then none
  else if component = ['.', '.'] then some .up
  else some (.name component)

def ofText (text : Text) : Path :=
  ⟨text.head? == some '/', (Text.splitOn '/' text).filterMap Step.ofComponent?⟩

def toText (path : Path) : Text :=
  (if path.absolute then ['/'] else []) ++ Text.joinWith ['/'] (path.steps.map Step.toText)

/-- `path` as seen from `folder`. -/
def join (folder path : Path) : Path :=
  if path.absolute then path else ⟨folder.absolute, folder.steps ++ path.steps⟩

/-- The path without its last step; there is none for a path without steps. -/
def parent? (path : Path) : Option Path :=
  if path.steps = [] then none else some { path with steps := path.steps.dropLast }

/-- Takes one more step, the last one taken first in the list. A step up undoes a name, and is kept
where there is no name to undo. -/
def fold : List Step → Step → List Step
  | .name _ :: rest, .up => rest
  | taken, step => step :: taken

def normalize (path : Path) : Path :=
  { path with steps := (path.steps.foldl fold []).reverse }

end Path

end BmakeZig
