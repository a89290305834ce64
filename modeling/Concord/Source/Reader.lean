import Concord.Source.Language
import Concord.Source.Lexer.CSharp
import Concord.Source.Lexer.Java
import Concord.Source.Lexer.Python
import Concord.Source.Lexer.Script
import Concord.Source.Reading

/-!
# Reading source code

A `Reader` gives the syntax tree of a text in a language, or nothing for a language that it cannot
read. What is done with trees does not depend on the reader they come from; `Reader.standard` cuts
a text into tokens, nests them by their brackets, makes an outline of them and names its nodes.
-/

namespace Concord.Source

/-- What makes syntax trees of texts. -/
abbrev Reader := CodeLanguage → List Char → Option Tree

/-- What a language makes of words and marks. -/
def grammarOf : CodeLanguage → Grammar
  | .javaScript => .javaScript
  | .typeScript => .typeScript
  | .python => .python
  | .cSharp => .cSharp
  | .java => .java

/-- The tokens of a text that begins at byte `offset`. -/
def tokensOf (language : CodeLanguage) (offset : Nat) (text : List Char) : List Token :=
  match language with
  | .javaScript => tokens (Script.lexer true) .initial offset text
  | .typeScript => tokens (Script.lexer false) .initial offset text
  | .python => tokens Python.lexer [] offset text
  | .cSharp => tokens CSharp.lexer .initial offset text
  | .java => tokens Java.lexer [] offset text

/-- The syntax tree of a text. A byte order mark at its beginning is no part of it. -/
def readTree (language : CodeLanguage) (text : List Char) : Tree :=
  let mark := if text.head? = some '\ufeff' then 1 else 0
  let toks := tokensOf language (Text.bytes (text.take mark)) (text.drop mark)
  let stop := Text.bytes text
  (outlineOf (grammarOf language) stop (Piece.ofTokens stop toks)).toTree (vocabulary language) none

namespace Reader

/-- Reads every language. -/
def standard : Reader := fun language text => some (readTree language text)

/-- Reads no language. -/
def none : Reader := fun _ _ => .none

/-- Whether what is looked for in trees of one language can be found in trees of another. -/
def interchangeable (a b : CodeLanguage) : Bool :=
  let scripts := [CodeLanguage.javaScript, .typeScript]
  a = b || scripts.contains a && scripts.contains b

/-- Reads every text as one language; languages that look different cannot be read. -/
def only (actual : CodeLanguage) : Reader := fun language text =>
  if interchangeable language actual then some (readTree actual text) else .none

end Reader

end Concord.Source
