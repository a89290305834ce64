import Concord.Source.Outline

/-!
# What a language makes of words and marks

Finding the calls in a list of tokens takes little knowledge of a language: which words are not
names, which of them stand before a condition in parentheses, and what a few marks mean after a
value. A `Grammar` is that knowledge.
-/

namespace Concord.Source

/-- What an exclamation mark after a value makes of it. -/
inductive Bang where
  | operator
  | nonNull
  | other
deriving DecidableEq, Repr

/-- What follows a type argument list that makes it one. -/
inductive TypeArguments where
  /-- There are none. -/
  | never
  /-- Only where an object is created or a member named. -/
  | guarded
  /-- Also before the arguments of a call. -/
  | calls
deriving DecidableEq, Repr

/-- How an object is created after `new`. -/
inductive Creation where
  /-- There is no such word. -/
  | none
  /-- By a constructor and, maybe, arguments. -/
  | constructor
  /-- By a type with arguments, dimensions or an initializer. -/
  | typed
deriving DecidableEq, Repr

/-- What a language makes of words and marks. -/
structure Grammar where
  /-- Words before a condition in parentheses. -/
  controls : List String
  /-- Words that are part of an expression or statement but neither values nor names. -/
  operators : List String
  /-- Words that are operators only after a value. -/
  infixWords : List String
  /-- Words that are values but not names. -/
  values : List String
  /-- Words that make a value together with the parentheses after them. -/
  wrappers : List String
  /-- Words that leave a statement at its start. -/
  starters : List String
  /-- Words before a name that is being declared. -/
  declarers : List String
  /-- Words before a function that may be a value. -/
  functions : List String
  /-- Words before a class that may be a value. -/
  classes : List String
  /-- Words that begin the head of a type declaration, up to its body. -/
  typeHeads : List String
  /-- Words of type heads only if a word follows. -/
  softTypeHeads : List String
  /-- Words of a matching statement that are names otherwise. -/
  matching : List String
  /-- Whether any value may be called, or only names. -/
  callsValues : Bool
  /-- Whether a template after a value calls it. -/
  tagsTemplates : Bool
  /-- Whether strings next to each other are one value. -/
  joinsStrings : Bool
  /-- Whether `?.` makes a value of its own out of what stands around it. -/
  conditionalAccess : Bool
  /-- Whether type arguments belong to the name before them. -/
  genericNames : Bool
  /-- Whether a call has the receiver and the name of its callee for parts of its own. -/
  flatCalls : Bool
  /-- Whether an argument is a part of a node of its own. -/
  wrapsArguments : Bool
  /-- Whether `->` accesses a member. -/
  arrowAccess : Bool
  /-- Whether `@` begins an annotation. -/
  annotations : Bool
  /-- Whether brackets may hold attributes. -/
  attributes : Bool
  /-- Whether the constants of an enumeration look like calls. -/
  enumCalls : Bool
  bang : Bang
  typeArguments : TypeArguments
  creation : Creation

namespace Grammar

/-- JavaScript. -/
def javaScript : Grammar where
  controls := ["if", "while", "for", "with", "switch", "catch"]
  operators :=
    ["return", "typeof", "instanceof", "in", "delete", "void", "throw", "case", "await", "yield",
     "extends", "const", "var", "let", "else", "do", "try", "finally", "break", "continue",
     "debugger", "enum"]
  infixWords := ["of"]
  values := ["this", "super", "null", "true", "false", "import", "undefined"]
  wrappers := []
  starters := ["export", "default"]
  declarers := []
  functions := ["function"]
  classes := ["class"]
  typeHeads := []
  softTypeHeads := []
  matching := []
  callsValues := true
  tagsTemplates := true
  joinsStrings := false
  conditionalAccess := false
  genericNames := false
  flatCalls := false
  wrapsArguments := false
  arrowAccess := false
  annotations := false
  attributes := false
  enumCalls := false
  bang := .operator
  typeArguments := .never
  creation := .constructor

/-- TypeScript: JavaScript with types. -/
def typeScript : Grammar :=
  { javaScript with
    infixWords := ["of", "as", "satisfies", "is"]
    operators := "implements" :: "keyof" :: javaScript.operators
    starters := "declare" :: "abstract" :: javaScript.starters
    bang := .nonNull
    typeArguments := .calls }

/-- Python. -/
def python : Grammar where
  controls := []
  operators :=
    ["and", "as", "assert", "async", "await", "break", "continue", "del", "elif", "else", "except",
     "finally", "for", "from", "global", "if", "import", "in", "is", "lambda", "nonlocal", "not",
     "or", "pass", "raise", "return", "try", "while", "with", "yield"]
  infixWords := []
  values := ["None", "True", "False"]
  wrappers := []
  starters := []
  declarers := ["def", "class"]
  functions := []
  classes := []
  typeHeads := []
  softTypeHeads := []
  matching := ["match", "case"]
  callsValues := true
  tagsTemplates := false
  joinsStrings := true
  conditionalAccess := false
  genericNames := false
  flatCalls := false
  wrapsArguments := false
  arrowAccess := false
  annotations := false
  attributes := false
  enumCalls := false
  bang := .operator
  typeArguments := .never
  creation := .none

/-- C#. -/
def cSharp : Grammar where
  controls :=
    ["if", "while", "for", "foreach", "switch", "lock", "using", "fixed", "catch", "delegate"]
  operators :=
    ["abstract", "async", "await", "break", "case", "const", "continue", "do", "else", "event",
     "explicit", "extern", "finally", "goto", "implicit", "in", "internal", "namespace",
     "operator", "out", "override", "params", "private", "protected", "public", "readonly", "ref",
     "return", "sealed", "stackalloc", "static", "throw", "try", "unsafe", "virtual", "volatile",
     "yield"]
  infixWords :=
    ["as", "is", "switch", "select", "where", "orderby", "group", "by", "on", "equals", "let",
     "join", "when", "and", "or", "with", "into"]
  values :=
    ["this", "base", "null", "true", "false", "bool", "byte", "char", "decimal", "double", "float",
     "int", "long", "object", "sbyte", "short", "string", "uint", "ulong", "ushort", "void"]
  wrappers := ["typeof", "sizeof", "default", "checked", "unchecked"]
  starters := []
  declarers := []
  functions := []
  classes := []
  typeHeads := ["class", "struct", "interface", "enum"]
  softTypeHeads := ["record"]
  matching := []
  callsValues := true
  tagsTemplates := false
  joinsStrings := false
  conditionalAccess := true
  genericNames := true
  flatCalls := false
  wrapsArguments := true
  arrowAccess := true
  annotations := false
  attributes := true
  enumCalls := false
  bang := .other
  typeArguments := .calls
  creation := .typed

/-- Java. -/
def java : Grammar where
  controls := ["if", "while", "for", "switch", "catch", "synchronized", "try"]
  operators :=
    ["abstract", "assert", "break", "case", "continue", "default", "do", "else", "extends",
     "final", "finally", "goto", "implements", "import", "instanceof", "native", "package",
     "private", "protected", "public", "return", "static", "strictfp", "throw", "throws",
     "transient", "volatile", "yield"]
  infixWords := []
  values :=
    ["this", "super", "null", "true", "false", "boolean", "byte", "char", "double", "float", "int",
     "long", "short", "void"]
  wrappers := []
  starters := []
  declarers := []
  functions := []
  classes := []
  typeHeads := ["class", "interface", "enum"]
  softTypeHeads := ["record"]
  matching := []
  callsValues := false
  tagsTemplates := false
  joinsStrings := false
  conditionalAccess := false
  genericNames := false
  flatCalls := true
  wrapsArguments := false
  arrowAccess := false
  annotations := true
  attributes := false
  enumCalls := true
  bang := .operator
  typeArguments := .guarded
  creation := .typed

end Grammar

end Concord.Source
