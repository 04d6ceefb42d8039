import Relayout.Text.Basic

/-!
# Files by path

A file tree lists files with their contents, directories, and the directory in
which relative paths start; a path that begins with a slash starts at the root.
A path is walked component by component: every component but the last must be a
directory, and so must the last if a slash follows it.
-/

namespace Relayout

/-- The files and directories, listed by their paths. -/
structure FileTree where
  /-- The components that lead from the root to the current directory. -/
  here : List Text
  files : List (Text × Text)
  dirs : List Text
  deriving DecidableEq, Repr

namespace FileTree

/-- What a path leads to. -/
inductive Entry where
  | file (content : Text)
  | directory
  deriving DecidableEq, Repr

/-- The parts of a path between its slashes; `current` holds the part being read. -/
def splitPath (current : Text) : Text → List Text
  | [] => [current]
  | u :: rest =>
    if u = Text.unit '/' then current :: splitPath [] rest else splitPath (current ++ [u]) rest

/-- The parts of a path that name something. -/
def components (path : Text) : List Text :=
  (splitPath [] path).filter fun c => !c.isEmpty && c ≠ Text.ofString "."

/-- The place where a path starts, as components from the root. -/
def startOf (t : FileTree) (path : Text) : List Text :=
  if path.head? = some (Text.unit '/') then [] else t.here

def placeOf (t : FileTree) (path : Text) : List Text :=
  t.startOf path ++ components path

def fileAt? (t : FileTree) (place : List Text) : Option Text :=
  (t.files.find? fun (path, _) => t.placeOf path = place).map (·.2)

/-- Whether a directory is at a place: a listed one, the current one, or one on the
way to anything. -/
def isDirectory (t : FileTree) (place : List Text) : Bool :=
  place.isPrefixOf t.here
    || t.dirs.any (fun path => place.isPrefixOf (t.placeOf path))
    || t.files.any (fun (path, _) => place.isPrefixOf (t.placeOf path) && t.placeOf path ≠ place)

/-- One step of a walk. Nothing is above the root. -/
def step (t : FileTree) (place : List Text) (component : Text) : Option (List Text) :=
  if !t.isDirectory place then none
  else if component.isEmpty ∨ component = Text.ofString "." then some place
  else if component = Text.ofString ".." then some place.dropLast
  else
    let next := place ++ [component]
    if (t.fileAt? next).isSome || t.isDirectory next then some next else none

/-- What a path leads to, if anything. The empty path leads nowhere. -/
def find? (t : FileTree) (path : Text) : Option Entry :=
  if path.isEmpty then none
  else
    ((splitPath [] path).foldlM t.step (t.startOf path)).map fun place =>
      match t.fileAt? place with
      | some content => .file content
      | none => .directory

/-- The last part of a path, slashes at its end aside. -/
def baseName (path : Text) : Text :=
  let trimmed := path.reverse.dropWhile (· = Text.unit '/')
  (trimmed.takeWhile (· ≠ Text.unit '/')).reverse

/-- The last part of a path from its last dot on. A part that starts with its
only dot has no extension, and neither has the parent directory. -/
def extension (path : Text) : Text :=
  let base := baseName path
  let suffix := (base.reverse.takeWhile (· ≠ Text.unit '.')).reverse
  if base.length ≤ suffix.length + 1 ∨ base = Text.ofString ".." then []
  else Text.unit '.' :: suffix

end FileTree

end Relayout
