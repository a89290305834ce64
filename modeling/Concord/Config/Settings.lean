import Concord.Config.Basic
import Concord.Project.Target
import Concord.Text.Blank

/-!
# Settings

A configuration becomes settings by looking up what it names: languages, formats and directories. A
target that lacks a part is left out. Any other problem costs no more than the name or directory
that has it, or puts a default in its place.

* `Config.settings` – the targets of a configuration and the problems with them.
-/

namespace Concord

/-- What is wrong with a target. -/
inductive TargetProblem where
  | incomplete
  | unknownLanguage (name : String)
  | noCodeDir (dir : String)
  | noCatalogDir (dir : String)
  | noFormat
  | noExtension
deriving DecidableEq, Repr, Inhabited

/-- The wording of a problem. -/
def TargetProblem.message : TargetProblem → String
  | incomplete => "Incomplete target definition. Please ensure codeLanguages, codeDirs, l10nDirs, "
      ++ "and l10nFuncNames are all specified."
  | unknownLanguage name => CodeLanguage.unknownMessage name ++ "."
  | noCodeDir dir => s!"Code directory '{dir}' does not exist."
  | noCatalogDir dir => s!"Localization directory '{dir}' does not exist."
  | noFormat => "Invalid or missing l10nFormat. Defaulting to 'po'. Supported formats are: 'po'."
  | noExtension => "Invalid or missing l10nExtension. Defaulting to '.po'."

/-- What is wrong with a configuration. -/
inductive SettingsProblem where
  | noTargets
  | ofTarget (index : Nat) (problem : TargetProblem)
deriving DecidableEq, Repr, Inhabited

/-- The wording of a problem. -/
def SettingsProblem.message : SettingsProblem → String
  | noTargets => "No targets defined. Please define at least one target."
  | ofTarget index problem => s!"targets[{index}]: {problem.message}"

/-- The targets of a project and what is wrong with how they are written. -/
structure Settings where
  targets : List Target
  problems : List SettingsProblem
  /-- The file that declares the targets. -/
  file : Option String
deriving DecidableEq, Repr, Inhabited

namespace TargetConfig

/-- Whether a target lacks a part that has no default. -/
def isIncomplete (t : TargetConfig) : Bool :=
  t.codeLanguages.isEmpty || t.codeDirs.isEmpty || t.catalogDirs.isEmpty || t.functions.isEmpty

/-- The languages of a target, each one once. -/
def languages (t : TargetConfig) : List CodeLanguage :=
  (t.codeLanguages.filterMap CodeLanguage.ofId?).eraseDups

/-- The names of languages that do not exist. -/
def unknownLanguages (t : TargetConfig) : List String :=
  t.codeLanguages.filter fun name => (CodeLanguage.ofId? name).isNone

/-- A directory that is written relative to another. -/
def resolveDir (base dir : String) : String := Path.normalize (Path.join base dir)

/-- The directories that exist, each one once. -/
def existingDirs (isDirectory : String → Bool) (base : String) (dirs : List String) :
    List String :=
  ((dirs.map (resolveDir base)).filter isDirectory).eraseDups

/-- The directories that do not exist, as they are written. -/
def missingDirs (isDirectory : String → Bool) (base : String) (dirs : List String) :
    List String :=
  dirs.filter fun dir => !isDirectory (resolveDir base dir)

/-- A text without the blanks at its ends. -/
def trimmed (s : String) : String := String.ofList (Text.trim s.toList)

/-- The names of functions, each one once. -/
def functionNames (t : TargetConfig) : List String :=
  ((t.functions.map trimmed).filter fun name => !name.isEmpty).eraseDups

/-- The format of catalogs, if it exists. -/
def format? (t : TargetConfig) : Option CatalogFormat := t.catalogFormat.bind CatalogFormat.ofId?

/-- The extension of catalogs with a dot, if it is written. -/
def extension? (t : TargetConfig) : Option String :=
  match t.catalogExtension.map trimmed with
  | none | some "" => none
  | some e => some (if e.toList.contains '.' then e else "." ++ e)

/-- What is wrong with a target that lacks no part. -/
def problems (isDirectory : String → Bool) (base : String) (t : TargetConfig) :
    List TargetProblem :=
  t.unknownLanguages.map .unknownLanguage
    ++ (missingDirs isDirectory base t.codeDirs).map .noCodeDir
    ++ (missingDirs isDirectory base t.catalogDirs).map .noCatalogDir
    ++ (if t.format?.isNone then [.noFormat] else [])
    ++ (if t.extension?.isNone then [.noExtension] else [])

/-- What a target that lacks no part stands for. -/
def toTarget (isDirectory : String → Bool) (base : String) (file : Option String)
    (t : TargetConfig) : Target where
  languages := t.languages
  codeDirs := existingDirs isDirectory base t.codeDirs
  format := t.format?.getD .po
  catalogDirs := existingDirs isDirectory base t.catalogDirs
  catalogExtension := t.extension?.getD (t.format?.getD .po).extension
  functions := t.functionNames
  settingsFile := file

end TargetConfig

namespace Config

/-- What a configuration in a file stands for, where directories are relative to `base`. -/
def settings (isDirectory : String → Bool) (base : String) (file : Option String) (c : Config) :
    Settings where
  targets := (c.targets.filter fun t => !t.isIncomplete).map (·.toTarget isDirectory base file)
  problems :=
    if c.targets.isEmpty then [.noTargets]
    else c.targets.zipIdx.flatMap fun (t, index) =>
      if t.isIncomplete then [.ofTarget index .incomplete]
      else (t.problems isDirectory base).map (.ofTarget index)
  file := file

end Config

end Concord
