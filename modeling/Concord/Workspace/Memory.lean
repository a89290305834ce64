import Concord.Dict
import Concord.Path
import Concord.Workspace.Basic

/-!
# Files in memory

A workspace that holds the texts of its files. Directories may be closed to listing and files to
reading; their files can still be edited.
-/

namespace Concord

/-- Texts by path. -/
structure MemoryWorkspace where
  files : Dict String
  closedDirs : List String
  closedFiles : List String
deriving DecidableEq

namespace MemoryWorkspace

/-- A workspace without files. -/
def empty : MemoryWorkspace := ⟨.empty, [], []⟩

/-- Put a file. -/
def put (w : MemoryWorkspace) (file text : String) : MemoryWorkspace :=
  { w with files := w.files.insert file text }

/-- Take a file away. -/
def remove (w : MemoryWorkspace) (file : String) : MemoryWorkspace :=
  { w with files := w.files.erase file }

/-- The files below a directory that have one of some extensions. -/
def findFiles (w : MemoryWorkspace) (dir : String) (extensions : List String) :
    Except WorkspaceError (List String) :=
  if w.closedDirs.contains dir then .error .listingRefused
  else .ok <| w.files.keys.filter fun file =>
    Path.isUnder file dir && Workspace.hasExtension extensions (Path.extension? file)

/-- The text of a file. -/
def readText (w : MemoryWorkspace) (file : String) : Except WorkspaceError String :=
  if w.closedFiles.contains file then .error .readingRefused
  else match w.files.get? file with
    | some text => .ok text
    | none => .error (.absent file)

/-- The new text of an edited file. -/
def edited (w : MemoryWorkspace) (e : String × List TextEdit) :
    Except WorkspaceError (String × String) :=
  match w.files.get? e.1 with
  | none => .error (.absent e.1)
  | some text => (Workspace.editText e.1 text e.2).map fun new => (e.1, new)

/-- Make all edits or none. -/
def applyEdits (w : MemoryWorkspace) (edits : EditSet) :
    Except WorkspaceError Unit × MemoryWorkspace :=
  match edits.files.mapM w.edited with
  | .error e => (.error e, w)
  | .ok texts => (.ok (), texts.foldl (fun w t => w.put t.1 t.2) w)

instance : Workspace MemoryWorkspace := ⟨findFiles, readText, applyEdits⟩

end MemoryWorkspace

end Concord
