/-!
# Programming languages

The languages in which calls of localization functions are looked for, with the names used in
settings and the extensions of their files.
-/

namespace Concord

/-- A language that calls are looked for in. -/
inductive CodeLanguage where
  | javaScript
  | typeScript
  | python
  | cSharp
  | java
deriving DecidableEq, Repr, Inhabited

namespace CodeLanguage

/-- All languages, in the order in which they are tried. -/
def all : List CodeLanguage := [javaScript, typeScript, python, cSharp, java]

/-- The name of a language in settings. -/
def id : CodeLanguage → String
  | javaScript => "javascript"
  | typeScript => "typescript"
  | python => "python"
  | cSharp => "csharp"
  | java => "java"

/-- The extensions of the files of a language, without their dots. -/
def extensions : CodeLanguage → List String
  | javaScript => ["js", "jsx", "mjs", "cjs"]
  | typeScript => ["ts", "mts", "cts"]
  | python => ["py"]
  | cSharp => ["cs"]
  | java => ["java"]

/-- A text without the dots at its beginning. -/
def dropDots (s : String) : String := String.ofList (s.toList.dropWhile (· = '.'))

/-- A text with its ASCII letters in lower case. -/
def lowerCase (s : String) : String := String.ofList (s.toList.map Char.toLower)

/-- The language of files with an extension, whatever its case, with or without its dot. -/
def ofExtension? (extension : String) : Option CodeLanguage :=
  let bare := lowerCase (dropDots extension)
  all.find? fun language => language.extensions.contains bare

/-- The language with a name. -/
def ofId? (name : String) : Option CodeLanguage := all.find? fun language => language.id = name

/-- The wording for a name that no language has. -/
def unknownMessage (name : String) : String :=
  let known := ", ".intercalate (all.map id)
  s!"Invalid code language '{name}'. Supported languages are: {known}"

end CodeLanguage

end Concord
