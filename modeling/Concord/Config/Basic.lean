import Concord.Glob
import Concord.Json.Reader
import Concord.Json.Value

/-!
# Configurations

A configuration says which directories of code and of catalogs belong together, what to leave out
and how often to look for changes. It is written as JSON; whatever it leaves out has a default.

* `Config.parse` – read a configuration;
* `Config.toJson` – write one;
* `Config.error?` – what makes a configuration unusable as a whole. What is wrong with a single
  target does not.
-/

namespace Concord

/-- A target as it is written, before its names and directories are looked up. -/
structure TargetConfig where
  codeLanguages : List String
  codeDirs : List String
  catalogFormat : Option String
  catalogDirs : List String
  catalogExtension : Option String
  functions : List String
deriving DecidableEq, Repr, Inhabited

/-- A configuration as it is written. -/
structure Config where
  /-- Paths and patterns of what is left out. -/
  ignores : List String
  /-- Milliseconds between two looks for changes. -/
  rebuildInterval : Nat
  targets : List TargetConfig
deriving DecidableEq, Repr, Inhabited

/-- Why a configuration cannot be used. -/
inductive ConfigError where
  | badPattern (pattern : String) (error : GlobError)
  | noInterval
deriving DecidableEq, Repr, Inhabited

/-- The wording of an error. -/
def ConfigError.message : ConfigError → String
  | badPattern pattern error =>
    s!"Invalid glob pattern in 'ignores': \"{pattern}\": {error.message}"
  | noInterval => "'rebuildIntervalMs' must be greater than 0"

namespace TargetConfig

/-- A target of which nothing is written. -/
def empty : TargetConfig := ⟨[], [], none, [], none, []⟩

/-- Python code in `src` and catalogs in `locales`. -/
def standard : TargetConfig where
  codeLanguages := ["python"]
  codeDirs := ["src"]
  catalogFormat := some "po"
  catalogDirs := ["locales"]
  catalogExtension := some ".po"
  functions := ["_", "gettext"]

/-- How the fields of a target are read. -/
def fields : List (Json.Field TargetConfig) :=
  [.of "codeLanguages" (Json.list Json.text) fun v t => { t with codeLanguages := v },
   .of "codeDirs" (Json.list Json.text) fun v t => { t with codeDirs := v },
   .of "l10nFormat" (Json.optional Json.text) fun v t => { t with catalogFormat := v },
   .of "l10nDirs" (Json.list Json.text) fun v t => { t with catalogDirs := v },
   .of "l10nExtension" (Json.optional Json.text) fun v t => { t with catalogExtension := v },
   .of "l10nFuncNames" (Json.list Json.text) fun v t => { t with functions := v }]

/-- A list of texts. -/
def textsToJson (ss : List String) : Json.Value := .list (ss.map .text)

/-- A field that is left out if there is no text. -/
def textField (name : String) (s : Option String) : List (String × Json.Value) :=
  (s.map fun s => (name, Json.Value.text s)).toList

/-- A target as JSON. -/
def toJson (t : TargetConfig) : Json.Value :=
  .record <|
    [("codeLanguages", textsToJson t.codeLanguages), ("codeDirs", textsToJson t.codeDirs)]
    ++ textField "l10nFormat" t.catalogFormat
    ++ [("l10nDirs", textsToJson t.catalogDirs)]
    ++ textField "l10nExtension" t.catalogExtension
    ++ [("l10nFuncNames", textsToJson t.functions)]

end TargetConfig

namespace Config

/-- Half a second. -/
def standardInterval : Nat := 500

/-- A configuration of which nothing is written. -/
def empty : Config := ⟨[], standardInterval, []⟩

/-- The configuration of a project without a configuration file. -/
def standard : Config := ⟨[], standardInterval, [.standard]⟩

/-- How the fields of a configuration are read. -/
def fields : List (Json.Field Config) :=
  [.of "ignores" (Json.list Json.text) fun v c => { c with ignores := v },
   .of "rebuildIntervalMs" Json.natural fun v c => { c with rebuildInterval := v },
   .of "targets" (Json.list (Json.record TargetConfig.fields TargetConfig.empty)) fun v c =>
     { c with targets := v }]

/-- Read a configuration. -/
def parse (s : String) : Except Json.Fault Config := Json.parse (Json.record fields empty) s

/-- A configuration as JSON. -/
def toJson (c : Config) : Json.Value :=
  .record
    [("ignores", TargetConfig.textsToJson c.ignores),
     ("rebuildIntervalMs", .natural c.rebuildInterval),
     ("targets", .list (c.targets.map TargetConfig.toJson))]

/-- What is wrong with a path or pattern that is left out. A path cannot be wrong. -/
def ignoreError? (s : String) : Option ConfigError :=
  if Glob.isPattern s then
    match Glob.parse s with
    | .ok _ => none
    | .error e => some (.badPattern s e)
  else none

/-- The first thing that makes a configuration unusable. -/
def error? (c : Config) : Option ConfigError :=
  (c.ignores.findSome? ignoreError?).or (if c.rebuildInterval = 0 then some .noInterval else none)

end Config

end Concord
