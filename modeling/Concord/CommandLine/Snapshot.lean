import Concord.Json.Reader
import Concord.Json.Value
import Concord.Workspace.FileTree

/-!
# Snapshots

A file tree as lines of text: each line is a JSON list of the path of a file and its text, or of the
path of a directory alone.

* `Snapshot.read` – the tree that some lines describe;
* `Snapshot.changes` – the lines of the files that are new or different in another tree.
-/

namespace Concord.CommandLine.Snapshot

/-- Add what one line describes to a tree. -/
def readLine (t : FileTree) (line : String) : Except Json.Fault FileTree := do
  match ← Json.parse (Json.list Json.text) line with
  | [path] => return t.makeDirs [] (FileTree.placeOf path)
  | [path, content] => return t.putWithDirs (FileTree.placeOf path) (.text content)
  | _ => throw .mismatched

/-- The tree that some lines describe. -/
def read (workingDir : String) (lines : List String) : Except Json.Fault FileTree :=
  let start := FileTree.placeOf workingDir
  lines.foldlM readLine { FileTree.empty.makeDirs [] start with workingDir := start }

/-- The line of a file. -/
def fileLine (path content : String) : String :=
  "[" ++ Json.quote path ++ ", " ++ Json.quote content ++ "]"

/-- The lines of the files that are new or different in another tree. -/
def changes (before after : FileTree) : List String :=
  after.nodes.entries.filterMap fun e =>
    match e.2 with
    | .text content =>
      if before.nodes.get? e.1 = some e.2 then none else some (fileLine e.1 content)
    | _ => none

end Concord.CommandLine.Snapshot
