import Concord.Source.Scan

/-!
# Tokens of Java

A string, between single quotes or triple ones, may hold substitutions: code between `\{` and `}`.
Nothing else depends on what came before, so the state is the open brackets and strings.
-/

namespace Concord.Source.Java

/-- What the text being read is part of. -/
inductive Mode where
  /-- Code up to a closing bracket. -/
  | code (bracket : Bracket)
  /-- A string up to its quotes. -/
  | string (triple : Bool)
deriving DecidableEq, Repr

/-- The open modes, innermost first. -/
abbrev State := List Mode

/-- Marks of more than one character. -/
def longMarks : List String := ["...", "->", "::", "++", "--", "&&", "||", "==", "!=", "<="]

/-- Whether a character may stand in a name. -/
def isNameChar (c : Char) : Bool := Scan.isNameChar c || c = '$'

/-- The bracket that a character opens or closes. -/
def bracket? : Char → Option (Bracket × Bool)
  | '(' => some (.round, true)
  | ')' => some (.round, false)
  | '[' => some (.square, true)
  | ']' => some (.square, false)
  | '{' => some (.block, true)
  | '}' => some (.block, false)
  | _ => none

/-- A step into a string. -/
def enterString (s : State) (triple : Bool) : LexStep State :=
  ⟨some (.opens (.quoted (some .string))), if triple then 2 else 0, .string triple :: s⟩

/-- A step inside code. -/
def code (s : State) (c : Char) (cs : List Char) : LexStep State :=
  if Scan.isGap c then ⟨none, 0, s⟩
  else if c = '/' && Scan.begins cs "/" then ⟨some (.comment .line), Scan.toLineEnd cs, s⟩
  else if c = '/' && Scan.begins cs "*" then
    ⟨some (.comment .block), 1 + Scan.through ['*', '/'] (cs.drop 1), s⟩
  else if c = '"' then enterString s (Scan.begins cs "\"\"")
  else if c = '\'' then ⟨some .operand, Scan.throughQuote '\'' cs, s⟩
  else if c.isDigit || (c = '.' && Scan.startsWithDigit cs) then
    ⟨some .operand, Scan.number (fun _ => c ≠ '.') cs, s⟩
  else if isNameChar c then ⟨some .word, Scan.run isNameChar cs, s⟩
  else match bracket? c with
    | some (b, true) => ⟨some (.opens b), 0, .code b :: s⟩
    | some (_, false) =>
      match s with
      | .code b :: rest => ⟨some (.closes b), 0, rest⟩
      | _ => ⟨none, 0, s⟩
    | none => ⟨some .mark, Scan.mark longMarks (c :: cs) - 1, s⟩

/-- A step inside a string. -/
def string (triple : Bool) (s : State) (c : Char) (cs : List Char) : LexStep State :=
  if c = '\\' && Scan.begins cs "\x7b" then
    ⟨some (.opens .substitution), 1, .code .substitution :: s⟩
  else if c = '\\' then ⟨none, 1, s⟩
  else if c = '"' && (!triple || Scan.begins cs "\"\"") then
    ⟨some (.closes (.quoted (some .string))), if triple then 2 else 0, s.tail⟩
  else ⟨none, 0, s⟩

/-- The lexer of Java. -/
def lexer : Lexer State := fun s c cs =>
  match s with
  | .string triple :: _ => string triple s c cs
  | _ => code s c cs

end Concord.Source.Java
