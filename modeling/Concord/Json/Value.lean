/-!
# Writing JSON

`Value.pretty` writes a value over several lines: every part of a list or record is on a line of its
own, two blanks further in than its bracket. A list or record without parts stays on one line.
-/

namespace Concord.Json

/-- What is written. -/
inductive Value where
  | text (s : String)
  | natural (n : Nat)
  | list (parts : List Value)
  | record (fields : List (String × Value))

/-- A hexadecimal digit. -/
def hexDigit (n : Nat) : Char := "0123456789abcdef".toList.getD n '0'

/-- A character of a string as it is written: quotes, backslashes and control characters are
escaped. -/
def writeChar (c : Char) : List Char :=
  match c with
  | '"' => ['\\', '"']
  | '\\' => ['\\', '\\']
  | '\x08' => ['\\', 'b']
  | '\x0c' => ['\\', 'f']
  | '\n' => ['\\', 'n']
  | '\r' => ['\\', 'r']
  | '\t' => ['\\', 't']
  | c =>
    if c < ' ' then ['\\', 'u', '0', '0', hexDigit (c.toNat / 16), hexDigit (c.toNat % 16)]
    else [c]

/-- A string in quotes. -/
def quote (s : String) : String :=
  "\"" ++ String.ofList (s.toList.flatMap writeChar) ++ "\""

/-- A new line with a number of blanks. -/
def newLine (blanks : Nat) : String := "\n" ++ String.ofList (List.replicate blanks ' ')

/-- Parts in brackets, each on a line of its own. -/
def bracketed (opening closing : String) (blanks : Nat) (parts : List String) : String :=
  if parts.isEmpty then opening ++ closing
  else
    let lines := parts.map fun part => newLine (blanks + 2) ++ part
    opening ++ ",".intercalate lines ++ newLine blanks ++ closing

namespace Value

mutual

/-- A value over several lines, where `blanks` are before the first of them. -/
def prettyAt (blanks : Nat) : Value → String
  | text s => quote s
  | natural n => toString n
  | list parts => bracketed "[" "]" blanks (prettyParts (blanks + 2) parts)
  | record fields => bracketed "\x7b" "\x7d" blanks (prettyFields (blanks + 2) fields)

/-- The parts of a list. -/
def prettyParts (blanks : Nat) : List Value → List String
  | [] => []
  | part :: rest => prettyAt blanks part :: prettyParts blanks rest

/-- The fields of a record. -/
def prettyFields (blanks : Nat) : List (String × Value) → List String
  | [] => []
  | (name, value) :: rest =>
    (quote name ++ ": " ++ prettyAt blanks value) :: prettyFields blanks rest

end

/-- A value over several lines. -/
def pretty (v : Value) : String := v.prettyAt 0

end Value

end Concord.Json
