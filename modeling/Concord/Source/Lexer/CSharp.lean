import Concord.Source.Scan

/-!
# Tokens of C#

Strings come with backslash escapes, with doubled quotes after an `@`, or raw between runs of three
or more quotes; after dollar signs each kind may hold substitutions. A substitution in a raw string
opens with as many braces as there are dollar signs. A line that begins with `#` is a directive and
gives no token.
-/

namespace Concord.Source.CSharp

/-- How the text of a string with substitutions ends and escapes. -/
inductive Quoting where
  | escaped
  | verbatim
  | raw (quotes braces : Nat)
deriving DecidableEq, Repr

/-- What the text being read is part of. -/
inductive Mode where
  /-- Code up to a closing bracket. -/
  | code (bracket : Bracket)
  /-- Code of a substitution that closes with a number of braces. -/
  | hole (braces : Nat)
  /-- The format of a substitution. -/
  | format
  /-- A string with substitutions. -/
  | interpolated (q : Quoting)
deriving DecidableEq, Repr

/-- The state between two tokens: the open modes, and whether the line has no token yet. -/
structure State where
  modes : List Mode
  lineStart : Bool
deriving Repr

/-- At the beginning of a text. -/
def State.initial : State := ⟨[], true⟩

/-- Whether the text being read is directly inside a substitution. -/
def State.inHole (s : State) : Bool :=
  match s.modes with
  | .hole _ :: _ => true
  | _ => false

/-- Marks of more than one character. -/
def longMarks : List String :=
  ["...", "..", "=>", "->", "::", "??", "++", "--", "&&", "||", "==", "!=", "<="]

/-- The bracket that a character opens or closes. -/
def bracket? : Char → Option (Bracket × Bool)
  | '(' => some (.round, true)
  | ')' => some (.round, false)
  | '[' => some (.square, true)
  | ']' => some (.square, false)
  | '{' => some (.block, true)
  | '}' => some (.block, false)
  | _ => none

/-- How many of a character a text begins with. -/
def countRun (c : Char) (cs : List Char) : Nat := Scan.run (· = c) cs

/-- The suffix that gives a string its encoding. -/
def encodingSuffix (cs : List Char) : Nat :=
  if Scan.begins cs "u8" || Scan.begins cs "U8" then 2 else 0

/-- A whole string after its opening, `opening` characters after the first, of which `body` says
how far the rest goes. -/
def literal (s : State) (kind : LiteralKind) (opening : Nat) (cs : List Char)
    (body : List Char → Nat) : LexStep State :=
  let rest := cs.drop opening
  let n := body rest
  ⟨some (.literal kind), opening + n + encodingSuffix (rest.drop n), ⟨s.modes, false⟩⟩

/-- A step into a string with substitutions. -/
def interpolate (s : State) (q : Quoting) (opening : Nat) : LexStep State :=
  ⟨some (.opens (.quoted none)), opening, ⟨.interpolated q :: s.modes, false⟩⟩

/-- A step at a quote, a dollar sign or an `@`, if a string begins there. -/
def string? (s : State) (c : Char) (cs : List Char) : Option (LexStep State) :=
  let all := c :: cs
  let dollars := countRun '$' all
  let afterDollars := all.drop dollars
  let quotes := countRun '"' afterDollars
  if 3 ≤ quotes then
    some <|
      if dollars = 0 then
        literal s .rawRun (quotes - 1) cs (Scan.through (List.replicate quotes '"'))
      else interpolate s (.raw quotes dollars) (dollars + quotes - 1)
  else if c = '"' then some (literal s .string 0 cs (Scan.throughQuote '"'))
  else if Scan.begins all "$\"" then some (interpolate s .escaped 1)
  else if Scan.begins all "@\"" then some (literal s .verbatim 1 cs (Scan.throughDoubled '"'))
  else if Scan.begins all "$@\"" || Scan.begins all "@$\"" then
    some (interpolate s .verbatim 2)
  else none

/-- A step inside code. -/
def code (s : State) (c : Char) (cs : List Char) : LexStep State :=
  let give (shape : Shape) (extra : Nat) : LexStep State := ⟨some shape, extra, ⟨s.modes, false⟩⟩
  if c = '\n' then ⟨none, 0, ⟨s.modes, true⟩⟩
  else if Scan.isGap c then ⟨none, 0, s⟩
  else if c = '#' && s.lineStart then ⟨none, Scan.toLineEnd cs, s⟩
  else if c = '/' && Scan.begins cs "/" then give (.comment .line) (Scan.toLineEnd cs)
  else if c = '/' && Scan.begins cs "*" then
    give (.comment .block) (1 + Scan.through ['*', '/'] (cs.drop 1))
  else if c = '\'' then give .operand (Scan.throughQuote '\'' cs)
  else if c.isDigit || (c = '.' && Scan.startsWithDigit cs) then
    give .operand (Scan.number (fun rest => c ≠ '.' && Scan.startsWithDigit rest) cs)
  else match string? s c cs with
    | some step => step
    | none =>
      if Scan.isNameChar c || c = '@' then give .word (Scan.run Scan.isNameChar cs)
      else match bracket? c with
        | some (b, true) => ⟨some (.opens b), 0, ⟨.code b :: s.modes, false⟩⟩
        | some (b, false) =>
          match s.modes with
          | .hole braces :: rest => ⟨some (.closes .substitution), braces - 1, ⟨rest, false⟩⟩
          | .code opened :: rest => ⟨some (.closes opened), 0, ⟨rest, false⟩⟩
          | _ => give (.closes b) 0
        | none =>
          -- directly inside a substitution a colon begins the format
          if c = ':' && !Scan.begins cs ":" && s.inHole then
            ⟨none, 0, ⟨.format :: s.modes, false⟩⟩
          else if c = '?' && Scan.begins cs "." && !Scan.startsWithDigit (cs.drop 1) then
            give .mark 1
          else give .mark (Scan.mark longMarks (c :: cs) - 1)

/-- A step inside a string with substitutions. -/
def interpolated (q : Quoting) (s : State) (c : Char) (cs : List Char) : LexStep State :=
  let skip (extra : Nat) : LexStep State := ⟨none, extra, s⟩
  let hole (braces : Nat) : LexStep State :=
    ⟨some (.opens .substitution), braces - 1, ⟨.hole braces :: s.modes, false⟩⟩
  let close (quotes : Nat) : LexStep State :=
    ⟨some (.closes (.quoted none)), quotes - 1, ⟨s.modes.tail, false⟩⟩
  match q with
  | .escaped =>
    if c = '\\' then skip 1
    else if c = '"' then close 1
    else if c = '{' && Scan.begins cs "\x7b" then skip 1
    else if c = '{' then hole 1
    else skip 0
  | .verbatim =>
    if c = '"' && Scan.begins cs "\"" then skip 1
    else if c = '"' then close 1
    else if c = '{' && Scan.begins cs "\x7b" then skip 1
    else if c = '{' then hole 1
    else skip 0
  | .raw quotes braces =>
    let run := countRun c (c :: cs)
    if c = '"' && quotes ≤ run then close quotes
    else if c = '{' && braces < run then skip (run - braces - 1)
    else if c = '{' && run = braces then hole braces
    else if c = '{' then skip (run - 1)
    else skip 0

/-- A step inside the format of a substitution, which ends with the substitution. -/
def format (s : State) (c : Char) : LexStep State :=
  match s.modes with
  | .format :: .hole braces :: rest =>
    if c = '}' then ⟨some (.closes .substitution), braces - 1, ⟨rest, false⟩⟩ else ⟨none, 0, s⟩
  | _ => ⟨none, 0, s⟩

/-- The lexer of C#. -/
def lexer : Lexer State := fun s c cs =>
  match s.modes with
  | .interpolated q :: _ => interpolated q s c cs
  | .format :: _ => format s c
  | _ => code s c cs

end Concord.Source.CSharp
