import Concord.Config.Settings
import Concord.Service
import Concord.Workspace.FileTree

/-!
# Finding the configuration

The configuration of a directory is the file of a fixed name in it or in the nearest directory above
that has one. The search ends at a directory that is the root of a repository. Where there is no
file, the standard configuration holds.

* `Loaded.findFile?` – the file;
* `Loaded.ofDirectory` – the configuration, or why it cannot be used.
-/

namespace Concord

/-- Why the configuration of a directory cannot be used. -/
inductive LoadError where
  | unreadable (path : String) (fault : FileFault)
  | unparsable (path : String) (fault : Json.Fault)
  | unusable (error : ConfigError)
deriving DecidableEq, Repr, Inhabited

namespace LoadError

/-- A character of a quoted path: quotes and backslashes are escaped, control characters
numbered. -/
def quoteChar (c : Char) : List Char :=
  match c with
  | '\x00' => ['\\', '0']
  | '\t' => ['\\', 't']
  | '\n' => ['\\', 'n']
  | '\r' => ['\\', 'r']
  | '"' => ['\\', '"']
  | '\'' => ['\\', '\'']
  | '\\' => ['\\', '\\']
  | c =>
    if c < ' ' || ('\x7f' ≤ c && c ≤ '\x9f') then
      ['\\', 'u', '\x7b'] ++ Nat.toDigits 16 c.toNat ++ ['\x7d']
    else [c]

/-- A path in quotes. -/
def quotePath (path : String) : String :=
  "\"" ++ String.ofList (path.toList.flatMap quoteChar) ++ "\""

/-- The wording of an error. What is wrong with the text of a file is not said. -/
def message : LoadError → String
  | unreadable path fault => s!"Failed to read config file: {quotePath path}: {fault.message}"
  | unparsable path _ => s!"Failed to parse config file: {quotePath path}"
  | unusable error => error.message

end LoadError

/-- The configuration of a directory. -/
structure Loaded where
  config : Config
  /-- The file it is written in. -/
  file : Option String
  /-- The directory that its directories are relative to. -/
  base : String
deriving DecidableEq, Repr, Inhabited

namespace Loaded

/-- A path and the paths above it, which are shorter. -/
def ancestors : Nat → String → List String
  | 0, dir => [dir]
  | n + 1, dir =>
    match Path.parent? dir with
    | some parent => dir :: ancestors n parent
    | none => [dir]

/-- The first file of the configuration's name in some directories, up to the root of a
repository. -/
def findIn (t : FileTree) : List String → Option String
  | [] => none
  | dir :: rest =>
    if t.contains (Path.join dir Service.settingsFileName) then
      some (Path.join dir Service.settingsFileName)
    else if t.contains (Path.join dir ".git") then none
    else findIn t rest

/-- The file that holds the configuration of a directory. -/
def findFile? (t : FileTree) (dir : String) : Option String :=
  findIn t (ancestors dir.length dir)

/-- Read the configuration in a file. -/
def readFile (t : FileTree) (file : String) : Except LoadError Config := do
  let text ← (t.read file).mapError (.unreadable file)
  let config ← (Config.parse text).mapError (.unparsable file)
  match config.error? with
  | some e => throw (.unusable e)
  | none => return config

/-- The configuration of a directory. -/
def ofDirectory (t : FileTree) (dir : String) : Except LoadError Loaded :=
  match findFile? t dir with
  | some file =>
    (readFile t file).map fun config => ⟨config, some file, (Path.parent? file).getD dir⟩
  | none => .ok ⟨.standard, none, dir⟩

/-- What a configuration stands for. -/
def settings (t : FileTree) (l : Loaded) : Settings :=
  l.config.settings t.isDirectory l.base l.file

end Loaded

end Concord
