/-!
# File access

What the library does with files, whatever they are: a directory tree in memory, or the files of the machine.  A path is
text whose parts are separated by slashes.
-/

namespace ELOntology

/-- The parts of a path, empty ones between slashes included. -/
def pathParts (path : String) : List String :=
  let rec go : List Char → List Char → List String
    | part, [] => [String.ofList part.reverse]
    | part, '/' :: rest => String.ofList part.reverse :: go [] rest
    | part, c :: rest => go (c :: part) rest
  go [] path.toList

def isRooted (path : String) : Bool := path.toList.head? = some '/'

/-- The path of the directory that holds what a path names.  Slashes at the end and parts that stay in place do not
count. -/
def parentPath (path : String) : String :=
  let parts := (pathParts path).filter fun part => part ≠ "" ∧ part ≠ "."
  let parent := "/".intercalate parts.dropLast
  if isRooted path then "/" ++ parent else parent

/-- The operations on files, each of which may fail. -/
structure FileAccess (m : Type → Type) where
  read : String → m (Option String)
  /-- Make a directory, with those on the way to it, unless it exists. -/
  makeDirectory : String → m Bool
  /-- Replace what a file holds, or make the file in a directory that exists. -/
  write : String → String → m Bool

end ELOntology
