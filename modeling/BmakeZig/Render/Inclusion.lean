import BmakeZig.Render.Value

/-! Included units. A relative path is tried next to the unit that includes it, in the searched
directories, in those of the settings and as it is; the first place that can be read is taken. -/
namespace BmakeZig

namespace Context

/-- The folder of the unit being rendered. -/
def folder? (context : Context) : Option Path :=
  (context.stack.head?.or context.root).bind Path.parent?

/-- The places to look at for a path, in order. -/
def places (context : Context) (searchDirs : List Path) (requested : Path) : List Path :=
  if requested.absolute then [requested.normalize]
  else
    let folders :=
      context.folder?.toList ++ searchDirs ++ context.settings.includeDirs.map Path.ofText
    folders.map (fun folder => (folder.join requested).normalize) ++ [requested.normalize]

/-- The units from the outermost to one that is about to be included. -/
def chain (context : Context) (place : Path) : List Path :=
  context.root.toList ++ context.stack.reverse ++ [place]

end Context

namespace Path

/-- The paths in order, each at its first place only. -/
def distinct : List Path → List Path
  | [] => []
  | path :: rest => path :: (distinct rest).filter (· ≠ path)

end Path

/-- What came of looking at places one after the other. -/
structure Located where
  failures : List (Path × LoadFault)
  found : Option (Path × Text)

def locate (load : Loader) : List Path → Located
  | [] => ⟨[], none⟩
  | place :: rest =>
    match load place.toText with
    | .ok source => ⟨[], some (place, source)⟩
    | .error fault =>
      let more := locate load rest
      ⟨(place, fault) :: more.failures, more.found⟩

namespace Located

def notes (located : Located) : List Note :=
  located.failures.map fun failure => .unusable failure.1.toText failure.2.message

def reason (located : Located) : Text :=
  Text.joinWith [';', ' '] <| located.failures.map fun failure =>
    failure.1.toText ++ [':', ' '] ++ failure.2.message

end Located

namespace Render

/-- The unit a path leads to, with its text. -/
def findUnit (context : Context) (requested : Text) : Render (Path × Text) := do
  let places := context.places (← get).searchDirs (Path.ofText requested)
  let located := locate context.load (Path.distinct places)
  noted ⟨(), located.notes⟩
  match located.found with
  | some found => return found
  | none => throw (.unitNotFound requested located.reason)

/-- The text of an included unit under a line that names its place. -/
def included (place : Path) (rendered : Text) : Text :=
  "// included from ".toList ++ place.toText ++
    (if rendered.isEmpty then [] else '\n' :: rendered)

/-- An included unit, rendered by `inner`; there is none when no deeper unit is allowed. -/
def inclusion (inner : Option (Context → Node → Render Text)) (context : Context) (node : Node) :
    Render Text := do
  let path ← require node "path" (node.find? .path)
  let requested ← staticPath context path
  let (place, source) ← findUnit context requested
  -- A unit that is open already is a cycle, however deep the pass may still go.
  if context.root = some place ∨ place ∈ context.stack then
    throw (.inclusionCycle ((context.chain place).map Path.toText))
  match inner with
  | none => throw (.depthExceeded place.toText context.settings.maxIncludeDepth)
  | some inner =>
    note (.including node.line place.toText (context.stack.length + 1))
    let rendered ← inner { context with stack := place :: context.stack } (context.parse source)
    return included place rendered

end Render

end BmakeZig
