import Concord.Catalog.Format
import Concord.Path
import Concord.Source.Language

/-!
# Targets

A target is one set of code directories, catalog directories and function names that are checked
against each other. Which of its files are code and which are catalogs follows from the directory
and the extension alone, whatever the case of its letters.

* `Target.isCodeFile`, `Target.isCatalogFile` – the two kinds of files;
* `Target.languageOf?` – the language of a code file.
-/

namespace Concord

/-- Directories of code and of catalogs that belong together. -/
structure Target where
  languages : List CodeLanguage
  codeDirs : List String
  format : CatalogFormat
  catalogDirs : List String
  /-- The extension of catalog files, with its dot. -/
  catalogExtension : String
  functions : List String
  /-- The settings file that declares the target. -/
  settingsFile : Option String
deriving DecidableEq, Repr, Inhabited

/-- What follows the last dot of the last name of a path, where a backslash ends a name too. -/
def extensionOf? (file : String) : Option String :=
  let name := (file.toList.reverse.takeWhile fun c => c ≠ '/' && c ≠ '\\').reverse
  (Path.splitLast? '.' name).map fun halves => String.ofList halves.2

/-- Whether two texts are equal but for the case of ASCII letters. -/
def sameIgnoringCase (a b : String) : Bool :=
  CodeLanguage.lowerCase a = CodeLanguage.lowerCase b

namespace Target

/-- The extensions of all code files of a target, without their dots. -/
def codeExtensions (t : Target) : List String := t.languages.flatMap CodeLanguage.extensions

/-- The extension of catalog files, without its dots. -/
def bareCatalogExtension (t : Target) : String := CodeLanguage.dropDots t.catalogExtension

/-- The language of a file, if the target has it. -/
def languageOf? (t : Target) (file : String) : Option CodeLanguage :=
  ((extensionOf? file).bind CodeLanguage.ofExtension?).filter t.languages.contains

/-- Whether a file is code of the target. -/
def isCodeFile (t : Target) (file : String) : Bool :=
  (t.languageOf? file).isSome && t.codeDirs.any (Path.isUnder file)

/-- Whether a file is a catalog of the target. -/
def isCatalogFile (t : Target) (file : String) : Bool :=
  (extensionOf? file).any (sameIgnoringCase t.bareCatalogExtension)
    && t.catalogDirs.any (Path.isUnder file)

end Target

end Concord
