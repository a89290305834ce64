import Concord.Dict
import Concord.Path
import Concord.Workspace.Basic

/-!
# File trees

A file tree holds what is at each place below the root: a directory, a text or bytes that are no
text. A path is followed name by name from the root, or from the working directory if it is
relative, and everything on the way must be a directory.

* `FileTree.resolve` – the place a path leads to, or why it leads nowhere;
* `FileTree.read`, `FileTree.write`, `FileTree.move` – the operations on files;
* `FileTree.filesBelow` – the files of a directory, found level by level.
-/

namespace Concord

/-- What is at a place. -/
inductive Node where
  | directory
  | text (content : String)
  /-- Bytes that are not UTF-8. -/
  | binary (bytes : List Nat)
deriving DecidableEq, Repr, Inhabited

/-- A place: the names that lead to it from the root. -/
abbrev Place := List String

/-- What is at each place. The root is a directory and is not held. -/
structure FileTree where
  nodes : Dict Node
  /-- The place that relative paths start from. -/
  workingDir : Place
deriving DecidableEq

namespace FileTree

/-- A tree that holds nothing. -/
def empty : FileTree := ⟨.empty, []⟩

/-- A place as a path from the root. -/
def pathOf (place : Place) : String := "/" ++ "/".intercalate place

/-- The place that a path from the root names. -/
def placeOf (path : String) : Place :=
  (Path.splitAt '/' path.toList).tail.map String.ofList

/-- What is at a place. -/
def node? (t : FileTree) (place : Place) : Option Node :=
  if place = [] then some .directory else t.nodes.get? (pathOf place)

/-- Put something at a place. -/
def put (t : FileTree) (place : Place) (node : Node) : FileTree :=
  { t with nodes := t.nodes.insert (pathOf place) node }

/-- Take away what is at a place. -/
def take (t : FileTree) (place : Place) : FileTree :=
  { t with nodes := t.nodes.erase (pathOf place) }

/-! ### Following paths -/

/-- Where a segment of a path leads from a directory. -/
def step (place : Place) (segment : List Char) : Place :=
  if Path.isFiller segment then place
  else if segment = ['.', '.'] then place.dropLast
  else place ++ [String.ofList segment]

/-- Where the segments of a path lead. -/
def follow (t : FileTree) (place : Place) : List (List Char) → Except FileFault Place
  | [] => .ok place
  | segment :: rest =>
    match t.node? place with
    | none => .error .missing
    | some .directory => follow t (step place segment) rest
    | some _ => .error .notDirectory

/-- The place that a path leads to. Something need not be there. -/
def resolve (t : FileTree) (path : String) : Except FileFault Place :=
  if path = "" then .error .missing
  else
    let start := if path.toList.head? = some '/' then [] else t.workingDir
    t.follow start (Path.splitAt '/' path.toList)

/-- The place that a path leads to, and what is there. -/
def find (t : FileTree) (path : String) : Except FileFault (Place × Node) := do
  let place ← t.resolve path
  match t.node? place with
  | some node => return (place, node)
  | none => throw .missing

/-- Whether a path leads to something. -/
def contains (t : FileTree) (path : String) : Bool := (t.find path).toOption.isSome

/-- Whether a path leads to a directory. -/
def isDirectory (t : FileTree) (path : String) : Bool :=
  match t.find path with
  | .ok (_, .directory) => true
  | _ => false

/-! ### Files -/

/-- The text of a file. -/
def read (t : FileTree) (path : String) : Except FileFault String := do
  match ← t.find path with
  | (_, .directory) => throw .isDirectory
  | (_, .text content) => return content
  | (_, .binary _) => throw .notText

/-- Make a text the content of a file, which need not be there. -/
def write (t : FileTree) (path content : String) : Except FileFault FileTree := do
  let place ← t.resolve path
  match t.node? place with
  | some .directory => throw .isDirectory
  | _ => return t.put place (.text content)

/-- Move a file to another path and replace the file that is there, if there is one. -/
def move (t : FileTree) (source target : String) : Except FileFault FileTree := do
  let (place, node) ← t.find source
  let newPlace ← t.resolve target
  match t.node? newPlace with
  | some .directory => throw .isDirectory
  | _ => return (t.take place).put newPlace node

/-! ### Building a tree -/

/-- Put a directory at each place on the way from one to another, and there. -/
def makeDirs (t : FileTree) (start : Place) : Place → FileTree
  | [] => t
  | name :: rest => makeDirs (t.put (start ++ [name]) .directory) (start ++ [name]) rest

/-- Put something at a place and directories on the way. -/
def putWithDirs (t : FileTree) (place : Place) (node : Node) : FileTree :=
  (t.makeDirs [] place.dropLast).put place node

/-! ### Listing -/

/-- Whether some characters can name something in a directory. -/
def isName (cs : List Char) : Bool :=
  !Path.isFiller cs && cs ≠ ['.', '.'] && !cs.contains '/'

/-- The name of what is at a path, if it is directly below a place. -/
def nameBelow? (place : Place) (path : String) : Option String :=
  ((pathOf (place ++ [""])).toList.isPrefixOf? path.toList).bind fun cs =>
    if isName cs then some (String.ofList cs) else none

/-- The names of what is directly below a place. -/
def names (t : FileTree) (place : Place) : List String := t.nodes.keys.filterMap (nameBelow? place)

/-- How many names lead to something at most. -/
def height (t : FileTree) : Nat := (t.nodes.keys.map fun path => path.toList.count '/').foldr max 0

/-- The files at and below a place, at most some levels down, where the place is written as a path.
What is left out is passed over, a directory with everything below it. -/
def walk (t : FileTree) (leftOut : String → Bool) (levels : Nat) (path : String) (place : Place) :
    List String :=
  if leftOut path then []
  else match t.node? place with
    | none => []
    | some .directory =>
      match levels with
      | 0 => []
      | levels + 1 =>
        (t.names place).flatMap fun name =>
          walk t leftOut levels (Path.join path name) (place ++ [name])
    | some _ => [path]

/-- The files at and below a directory that are not left out. A file that is given instead of a
directory is its only file. -/
def filesBelow (t : FileTree) (leftOut : String → Bool) (dir : String) : List String :=
  match t.resolve dir with
  | .error _ => []
  | .ok place => t.walk leftOut t.height dir place

end FileTree

end Concord
