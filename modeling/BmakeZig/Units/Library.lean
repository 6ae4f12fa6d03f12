import BmakeZig.Path

/-! Where the text of a unit comes from: a loader answers a path, as written, with the text found
there or with the reason why there is none. -/
namespace BmakeZig

inductive LoadFault where
  | noUnit (path : Text)
  | notFound
  | notFolder
  | isFolder
  | nameTooLong
  | nulCharacter
  /-- Any other reason, in the words of the loader. -/
  | other (message : Text)
deriving DecidableEq, Repr

def LoadFault.message : LoadFault → Text
  | .noUnit path => "no in-memory unit at ".toList ++ path
  | .notFound => "No such file or directory (os error 2)".toList
  | .notFolder => "Not a directory (os error 20)".toList
  | .isFolder => "Is a directory (os error 21)".toList
  | .nameTooLong => "File name too long (os error 36)".toList
  | .nulCharacter => "file name contained an unexpected NUL byte".toList
  | .other message => message

abbrev Loader := Text → Except LoadFault Text

/-! Units held in memory. Two spellings of a path with one normal form name the same unit. -/

abbrev Library := List (Path × Text)

namespace Library

/-- Adds a unit, in place of one at the same normal form. -/
def insertAt (path : Path) (source : Text) : Library → Library
  | [] => [(path, source)]
  | (key, old) :: rest =>
    if key = path then (key, source) :: rest else (key, old) :: insertAt path source rest

def insert (library : Library) (path source : Text) : Library :=
  insertAt (Path.ofText path).normalize source library

def ofFiles (files : List (Text × Text)) : Library :=
  files.foldl (fun library file => library.insert file.1 file.2) []

def findAt? : Library → Path → Option Text
  | [], _ => none
  | (key, source) :: rest, path => if key = path then some source else findAt? rest path

def load (library : Library) : Loader := fun path =>
  match library.findAt? (Path.ofText path).normalize with
  | some source => .ok source
  | none => .error (.noUnit path)

end Library

end BmakeZig
