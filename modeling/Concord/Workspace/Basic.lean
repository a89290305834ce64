import Concord.Edit.Splice

/-!
# Workspaces

A workspace holds the files of a project: it lists them, reads them and edits them. Edits of several
files are made together or not at all.

* `Workspace` – the three operations;
* `WorkspaceError` – why one of them fails.
-/

namespace Concord

/-- Why a file system refuses. -/
inductive FileFault where
  | missing
  | notDirectory
  | isDirectory
  | notText
deriving DecidableEq, Repr, Inhabited

/-- The wording of a refusal of the file system. -/
def FileFault.message : FileFault → String
  | missing => "No such file or directory (os error 2)"
  | notDirectory => "Not a directory (os error 20)"
  | isDirectory => "Is a directory (os error 21)"
  | notText => "stream did not contain valid UTF-8"

/-- Why an operation on a workspace fails. -/
inductive WorkspaceError where
  /-- No file of that path is held. -/
  | absent (file : String)
  /-- A directory is closed to listing. -/
  | listingRefused
  /-- A file is closed to reading. -/
  | readingRefused
  | unreadable (file : String) (fault : FileFault)
  | unwritable (file : String) (fault : FileFault)
  | irreplaceable (file : String) (fault : FileFault)
  | badEdits (file : String) (error : EditError)
deriving DecidableEq, Repr, Inhabited

/-- The wording of a failure. -/
def WorkspaceError.message : WorkspaceError → String
  | absent file => s!"No such file: {file}"
  | listingRefused => "cannot list"
  | readingRefused => "cannot read"
  | unreadable file fault => s!"Failed to read file: {file}: {fault.message}"
  | unwritable file fault => s!"Failed to write file: {file}: {fault.message}"
  | irreplaceable file fault => s!"Failed to replace file: {file}: {fault.message}"
  | badEdits file error => s!"Failed to apply edits to {file}: {error.message}"

/-- What holds the files of a project. -/
class Workspace (ω : Type) where
  /-- The files below a directory that have one of some extensions, in order. -/
  findFiles : ω → String → List String → Except WorkspaceError (List String)
  readText : ω → String → Except WorkspaceError String
  /-- Make all edits, or fail and make none. -/
  applyEdits : ω → EditSet → Except WorkspaceError Unit × ω

namespace Workspace

/-- Whether a path has one of some extensions, whatever the case of its letters. -/
def hasExtension (extensions : List String) (extension : Option String) : Bool :=
  extension.any fun e =>
    extensions.any fun e' => e'.toList.map Char.toLower = e.toList.map Char.toLower

/-- Give an edited text the name of its file. -/
def editText (file text : String) (edits : List TextEdit) : Except WorkspaceError String :=
  match Concord.applyEdits text.toList edits with
  | .ok cs => .ok (String.ofList cs)
  | .error e => .error (.badEdits file e)

end Workspace

end Concord
