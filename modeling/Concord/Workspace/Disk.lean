import Concord.Glob
import Concord.Workspace.FileTree

/-!
# Files on disk

A workspace on a file tree. Some files are left out of its lists: those that a pattern stands for or
that lie below a path that is left out, and everything below a directory that is left out itself.

Edits are made in two steps. All new texts are worked out first, so that a bad edit changes nothing;
then one file after the other is replaced through a temporary sibling, and if that fails the files
replaced so far are restored.

* `Disk.findFiles` – which files are listed;
* `Disk.applyEdits` – all edits or none.
-/

namespace Concord

/-- What is left out of lists of files. -/
structure Ignores where
  paths : List String
  patterns : List Glob
deriving DecidableEq, Repr, Inhabited

namespace Ignores

/-- What is left out of the files below a root, where paths are relative to the root. A pattern that
is wrong leaves out nothing. -/
def ofList (root : String) (ignores : List String) : Ignores where
  paths := (ignores.filter fun i => !Glob.isPattern i).map (Path.join root)
  patterns := (ignores.filter Glob.isPattern).filterMap fun i => (Glob.parse i).toOption

/-- Whether a path is left out by itself. -/
def covers (i : Ignores) (path : String) : Bool :=
  i.paths.any (Path.isUnder path) || i.patterns.any (·.accepts path)

end Ignores

/-- A file tree as a workspace. -/
structure Disk where
  tree : FileTree
  ignores : Ignores
deriving DecidableEq

namespace Disk

/-- The files below a directory that have one of some extensions and are not left out, in order. -/
def findFiles (d : Disk) (dir : String) (extensions : List String) :
    Except WorkspaceError (List String) :=
  let found := (d.tree.filesBelow d.ignores.covers dir).filter fun file =>
    Workspace.hasExtension extensions (Path.extension? file)
  .ok (found.mergeSort fun a b => a ≤ b)

/-- The text of a file. -/
def readText (d : Disk) (file : String) : Except WorkspaceError String :=
  (d.tree.read file).mapError (.unreadable file)

/-! ### Replacing files -/

/-- The file that a file is replaced through. -/
def temporaryPath (file : String) : String :=
  Path.sibling file ((Path.fileName? file).getD "" ++ ".locsync-tmp")

/-- Write the new text of a file next to it and move it there. -/
def replace (t : FileTree) (file text : String) : Except WorkspaceError Unit × FileTree :=
  match t.write (temporaryPath file) text with
  | .error fault => (.error (.unwritable (temporaryPath file) fault), t)
  | .ok written =>
    match written.move (temporaryPath file) file with
    | .error fault => (.error (.irreplaceable file fault), written)
    | .ok moved => (.ok (), moved)

/-- Give files their texts back, as far as that can be done. -/
def restore (t : FileTree) (former : List (String × String)) : FileTree :=
  former.foldl (fun t e => (replace t e.1 e.2).2) t

/-! ### Edits -/

/-- A file to be replaced. -/
structure Replacement where
  file : String
  former : String
  edited : String
deriving DecidableEq, Repr, Inhabited

/-- What a file with its edits is to be replaced by. -/
def plan (d : Disk) (e : String × List TextEdit) : Except WorkspaceError Replacement := do
  let former ← d.readText e.1
  return ⟨e.1, former, ← Workspace.editText e.1 former e.2⟩

/-- Replace files one after the other. If one fails, those in `replaced`, the latest first, and all
that followed are restored. -/
def commit (t : FileTree) (replaced : List (String × String)) :
    List Replacement → Except WorkspaceError Unit × FileTree
  | [] => (.ok (), t)
  | r :: rest =>
    match replace t r.file r.edited with
    | (.ok (), t) => commit t ((r.file, r.former) :: replaced) rest
    -- the latest one is restored first
    | (.error e, t) => (.error e, restore t replaced)

/-- Make all edits or none. -/
def applyEdits (d : Disk) (edits : EditSet) : Except WorkspaceError Unit × Disk :=
  match edits.files.mapM d.plan with
  | .error e => (.error e, d)
  | .ok replacements =>
    let (result, tree) := commit d.tree [] replacements
    (result, { d with tree := tree })

instance : Workspace Disk := ⟨findFiles, readText, applyEdits⟩

end Disk

end Concord
