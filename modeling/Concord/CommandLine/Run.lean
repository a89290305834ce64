import Concord.CommandLine.Help
import Concord.Report
import Concord.Workspace.Disk

/-!
# Running a request

A request is run on a file tree. It leaves a tree, two texts and a number: `0` if all is well, `1`
if something is wrong with the project, `2` if the request could not be done.

* `run` – what some arguments do.
-/

namespace Concord.CommandLine

/-- What a run depends on besides its arguments and the files. -/
structure Environment where
  /-- The directory of the project where none is given. -/
  sourceRoot : Option String
  colored : Bool
  /-- Whether warnings are told. -/
  warns : Bool
deriving DecidableEq, Repr

/-- What a run leaves. -/
structure Outcome where
  status : Nat
  output : String
  complaints : String
  tree : FileTree

/-- Why a request cannot be done. -/
inductive Failure where
  | noRoot (root : String) (fault : FileFault)
  | noConfig (error : LoadError)
  | noRename (error : RenameFailure)
  | unwritableConfig (fault : FileFault)
deriving DecidableEq, Repr

/-- The wording of a failure. -/
def Failure.message : Failure → String
  | noRoot root fault => s!"Failed to resolve project root: {root}: {fault.message}"
  | noConfig error => error.message
  | noRename error => error.message
  | unwritableConfig fault => s!"Failed to write {Service.settingsFileName}: {fault.message}"

namespace Outcome

/-- All is well. -/
def success (tree : FileTree) (output : String) : Outcome := ⟨0, output, "", tree⟩

/-- A request could not be done. -/
def failure (tree : FileTree) (f : Failure) : Outcome := ⟨2, "", s!"Error: {f.message}\n", tree⟩

/-- Tell something before all other complaints. -/
def warn (o : Outcome) (warnings : String) : Outcome :=
  { o with complaints := warnings ++ o.complaints }

end Outcome

/-- A project whose files were read. -/
structure Project where
  root : String
  service : Service
  disk : Disk
  /-- The files that could not be read. -/
  unread : List WorkspaceError

namespace Project

/-- The directory of a project, with nothing left to follow in its path. -/
def rootDir (tree : FileTree) (root : Option String) : Except Failure String :=
  let path := root.getD (FileTree.pathOf tree.workingDir)
  match tree.find path with
  | .ok (place, _) => .ok (FileTree.pathOf place)
  | .error fault => .error (.noRoot path fault)

/-- Find the configuration of a project and read all files it is about. -/
def load (tree : FileTree) (root : Option String) : Except Failure Project := do
  let root ← rootDir tree root
  let loaded ← (Loaded.ofDirectory tree root).mapError .noConfig
  let settings := loaded.settings tree
  let disk : Disk := ⟨tree, .ofList loaded.base loaded.config.ignores⟩
  let service := Service.new settings.targets (settings.problems.map SettingsProblem.message)
    settings.file root .standard loaded.config.rebuildInterval
  let scanned := service.initialScan disk
  return ⟨root, scanned.service.flush disk 0, disk, scanned.unread⟩

/-- What is told about files that could not be read. -/
def warnings (p : Project) (e : Environment) : String :=
  if e.warns then String.join (p.unread.map fun error => s!"WARN {error.message}\n") else ""

end Project

/-- Report what is wrong with a project. -/
def check (e : Environment) (tree : FileTree) (p : Project) : Outcome :=
  let form : Report.Form := ⟨e.colored, p.root⟩
  let findings := p.service.diagnostics
  let shown := Report.listing form (fun file => (tree.read file).toOption) findings
  if findings.countOf .error + findings.countOf .warning = 0 then
    .success tree
      (shown ++ Report.consistent form p.service.codeFileCount p.service.catalogFileCount)
  else ⟨1, shown, "", tree⟩

/-- Rename a key in a project, or show what that would do. -/
def rename (e : Environment) (p : Project) (old new : String) (apply : Bool) : Outcome :=
  let (result, disk) :=
    if apply then
      let (result, disk, _) := p.service.rename p.disk old new
      (result, disk)
    else ((p.service.planRename old new).mapError .refused, p.disk)
  match result with
  | .ok edits => .success disk.tree (Report.renamed ⟨e.colored, p.root⟩ old new edits apply)
  | .error error => .failure disk.tree (.noRename error)

/-- Write the standard configuration, unless there is one. -/
def init (e : Environment) (tree : FileTree) : Outcome :=
  if tree.contains Service.settingsFileName then
    ⟨1, "", s!"Error: {Service.settingsFileName} already exists\n", tree⟩
  else match tree.write Service.settingsFileName Config.standard.toJson.pretty with
    | .ok tree => .success tree (Report.created ⟨e.colored, ""⟩)
    | .error fault => .failure tree (.unwritableConfig fault)

/-- Do what a request asks for on a project. -/
def onProject (e : Environment) (tree : FileTree) (root : Option String)
    (act : Project → Outcome) : Outcome :=
  match Project.load tree root with
  | .ok p => (act p).warn (p.warnings e)
  | .error failure => .failure tree failure

/-- What a command does. -/
def runCommand (e : Environment) (tree : FileTree) : Command → Outcome
  | .check root => onProject e tree root (check e tree)
  | .rename root old new apply => onProject e tree root fun p => rename e p old new apply
  | .init => init e tree

/-- The name and number of the program. -/
def version : String := "locsync 0.1.0"

/-- What some arguments do. -/
def run (e : Environment) (args : List String) (tree : FileTree) : Outcome :=
  match Request.parse e.sourceRoot args with
  | some (.run command) => runCommand e tree command
  | some (.help topic) => .success tree (Help.text e.colored e.sourceRoot topic)
  | some .version => .success tree (version ++ "\n")
  | none => ⟨2, "", "error: the arguments cannot be understood; try '--help'\n", tree⟩

end Concord.CommandLine
