import BmakeZig.Path
import BmakeZig.Units.Library

/-! Units in a tree of folders and files. A path is walked step by step from the root or from the
current folder, and the first step that cannot be taken decides the fault: only a folder has
something below it, and a name has at most 255 bytes. Before any step the whole path must be free of
NUL and shorter than 4096 bytes. -/
namespace BmakeZig

inductive Entry where
  | file (text : Text)
  | folder (entries : List (Text × Entry))

structure FileTree where
  root : List (Text × Entry)
  /-- Names that lead from the root to the current folder. -/
  current : List Text := []

namespace FileTree

def maxNameSize : Nat := 255

def maxPathSize : Nat := 4095

/-- Takes one step from the entry at the head, below which are the folders that lead to it. Above
the root there is the root. -/
def step (place : Entry × List Entry) : Path.Step → Except LoadFault (Entry × List Entry)
  | .up =>
    match place with
    | (.file _, _) => .error .notFolder
    | (.folder _, above :: rest) => .ok (above, rest)
    | (.folder _, []) => .ok place
  | .name name =>
    match place with
    | (.file _, _) => .error .notFolder
    | (.folder entries, above) =>
      if maxNameSize < Text.utf8Size name then .error .nameTooLong
      else
        match entries.lookup name with
        | none => .error .notFound
        | some entry => .ok (entry, .folder entries :: above)

def walk (tree : FileTree) (path : Path) : Except LoadFault Entry := do
  let start := if path.absolute then [] else tree.current.map .name
  let place ← (start ++ path.steps).foldlM step (.folder tree.root, [])
  return place.1

def load (tree : FileTree) : Loader := fun path =>
  if '\x00' ∈ path then .error .nulCharacter
  else if path = [] then .error .notFound
  else if maxPathSize < Text.utf8Size path then .error .nameTooLong
  else
    match tree.walk (Path.ofText path) with
    | .error fault => .error fault
    | .ok (.folder _) => .error .isFolder
    | .ok (.file text) => .ok text

end FileTree

end BmakeZig
