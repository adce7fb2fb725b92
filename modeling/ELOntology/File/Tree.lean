import ELOntology.File.Access

/-!
# A directory tree in memory

Places are lists of names, from the root down.  The directories are the working directory, those that were made, those
that hold a file, and all that are above one of them.  A name has at most 255 bytes and a path at most 4095; a longer
path leads nowhere, wherever its parts would lead.
-/

namespace ELOntology

structure FileTree where
  workingDirectory : List String
  /-- The directories that were made. -/
  made : List (List String)
  /-- The files with what they hold, each file once. -/
  files : List (List String × String)
deriving DecidableEq, Inhabited

namespace FileTree

/-- A tree with the given files, whose paths lead from the working directory down. -/
def ofFiles (workingDirectory : List String) (files : List (String × String)) : FileTree :=
  ⟨workingDirectory, [], files.map fun (path, content) =>
    (workingDirectory ++ (pathParts path).filter (· ≠ ""), content)⟩

def content? (t : FileTree) (place : List String) : Option String := (t.files.find? fun f => f.1 = place).map (·.2)

def isDirectory (t : FileTree) (place : List String) : Bool :=
  (t.workingDirectory :: t.made ++ t.files.map (·.1.dropLast)).any (place.isPrefixOf ·)

/-- Whether a part of a path is a name: it is not empty, not one that stays or goes up, and at most 255 bytes long. -/
def isName (part : String) : Bool :=
  part ≠ "" && part ≠ "." && part ≠ ".." && decide (part.utf8ByteSize ≤ 255) && !part.toList.contains '\x00'

/-- Whether a path is short enough to be followed. -/
def isFollowable (path : String) : Bool := decide (path.utf8ByteSize ≤ 4095)

/-- Where a path starts. -/
def start? (t : FileTree) (path : String) : Option (List String) :=
  if isFollowable path then some (if isRooted path then [] else t.workingDirectory) else none

/-- Go from a directory where a part of a path leads, up no further than to the root. -/
def step? (t : FileTree) (place : List String) (part : String) : Option (List String) :=
  if part = "" ∨ part = "." then some place
  else if part = ".." then some place.dropLast
  else if t.isDirectory (place ++ [part]) then some (place ++ [part])
  else none

/-- The place that a path of a file names, if its directory exists. -/
def locate? (t : FileTree) (path : String) : Option (List String) := do
  let parts := pathParts path
  let place ← parts.dropLast.foldlM t.step? (← t.start? path)
  let name ← parts.getLast?
  if isName name then some (place ++ [name]) else none

def read (t : FileTree) (path : String) : Option String := (t.locate? path).bind t.content?

/-- As `step?`, but a directory that does not exist is made. -/
def stepMaking? (s : List String × FileTree) (part : String) : Option (List String × FileTree) :=
  let (place, t) := s
  match t.step? place part with
  | some place => some (place, t)
  | none =>
    if isName part ∧ t.content? (place ++ [part]) = none then
      some (place ++ [part], { t with made := (place ++ [part]) :: t.made })
    else none

def makeDirectory (t : FileTree) (path : String) : Option FileTree := do
  let (_, t) ← (pathParts path).foldlM stepMaking? (← t.start? path, t)
  return t

def write (t : FileTree) (path content : String) : Option FileTree := do
  let place ← t.locate? path
  if t.isDirectory place then none
  else some { t with files := (place, content) :: t.files.filter fun f => f.1 ≠ place }

/-- Change the tree if that succeeds, and say whether it does. -/
def attempt (change : FileTree → Option FileTree) : StateM FileTree Bool := fun t =>
  match change t with
  | some t => (true, t)
  | none => (false, t)

/-- The tree as a file system. -/
def access : FileAccess (StateM FileTree) where
  read path := fun t => (t.read path, t)
  makeDirectory path := attempt (·.makeDirectory path)
  write path content := attempt (·.write path content)

end FileTree

end ELOntology
