import Concord.Source.Scan

/-!
# Tokens of Python

A line ends where no bracket is open, unless a backslash joins it to the next; the backslash is
skipped like a comment. A string may have a prefix of letters and may stand between three quotes;
with an `f` or a `t` in the prefix it may hold substitutions, each with a format after a colon that
may hold substitutions again.
-/

namespace Concord.Source.Python

/-- What the text being read is part of. -/
inductive Mode where
  /-- Code up to a closing bracket. -/
  | code (bracket : Bracket)
  /-- A string with substitutions, up to its quotes; in a raw one a backslash names no character. -/
  | formatted (quote : Char) (triple raw : Bool)
  /-- The format of a substitution. -/
  | format
deriving DecidableEq, Repr

/-- The open modes, innermost first. -/
abbrev State := List Mode

/-- Whether a word may stand before the quote of a string. -/
def isStringLead (word : List Char) : Bool :=
  word.length ≤ 3 && word.all fun c => "rRbBuUfFtT".toList.contains c

/-- Whether the prefix of a string allows substitutions. -/
def isFormatLead (word : List Char) : Bool :=
  word.any fun c => "fFtT".toList.contains c

/-- Whether the prefix of a string makes it raw. -/
def isRawLead (word : List Char) : Bool := word.any fun c => c = 'r' || c = 'R'

/-- A step at the beginning of a string whose prefix, of `lead` more characters than the first, is
followed by a quote and `rest`. -/
def string (s : State) (word : List Char) (lead : Nat) (quote : Char) (rest : List Char) :
    LexStep State :=
  let triple := [quote, quote].isPrefixOf rest
  let opening := lead + if triple then 2 else 0
  if isFormatLead word then
    ⟨some (.opens (.quoted (some .string))), opening, .formatted quote triple (isRawLead word) :: s⟩
  else
    let body :=
      if triple then Scan.throughTriple quote (rest.drop 2) else Scan.throughQuote quote rest
    ⟨some (.literal .string), opening + body, s⟩

/-- Marks of more than one character. -/
def longMarks : List String := ["->", "!=", "==", ":=", "**", "//"]

/-- A step inside code. -/
def code (s : State) (c : Char) (cs : List Char) : LexStep State :=
  if c = '\n' then ⟨if s.isEmpty then some .lineEnd else none, 0, s⟩
  else if Scan.isGap c then ⟨none, 0, s⟩
  else if c = '\\' then ⟨some (.comment .continuation), if Scan.begins cs "\r\n" then 2 else 1, s⟩
  else if c = '#' then ⟨some (.comment .line), Scan.toLineEnd cs, s⟩
  else if c = '"' || c = '\'' then string s [] 0 c cs
  else if c.isDigit || (c = '.' && Scan.startsWithDigit cs) then
    ⟨some .operand, Scan.number (fun _ => c ≠ '.') cs, s⟩
  else if Scan.isNameChar c then
    let extra := Scan.run Scan.isNameChar cs
    let word := c :: cs.take extra
    match cs.drop extra with
    | q :: rest =>
      if (q = '"' || q = '\'') && isStringLead word then string s word (extra + 1) q rest
      else ⟨some .word, extra, s⟩
    | [] => ⟨some .word, extra, s⟩
  else if c = '(' then ⟨some (.opens .round), 0, .code .round :: s⟩
  else if c = '[' then ⟨some (.opens .square), 0, .code .square :: s⟩
  else if c = '{' then ⟨some (.opens .braces), 0, .code .braces :: s⟩
  else if c = ')' || c = ']' || c = '}' then
    match s with
    | .code b :: rest => ⟨some (.closes b), 0, rest⟩
    | _ => ⟨none, 0, s⟩
  -- directly inside a substitution a colon begins the format
  else if c = ':' && s.head? = some (.code .substitution) then ⟨none, 0, .format :: s⟩
  else if c = '.' && Scan.begins cs ".." then ⟨some .operand, 2, s⟩
  else ⟨some .mark, Scan.mark longMarks (c :: cs) - 1, s⟩

/-- A step inside a string with substitutions. A backslash protects no brace, but a character may be
named between braces. -/
def formatted (quote : Char) (triple raw : Bool) (s : State) (c : Char) (cs : List Char) :
    LexStep State :=
  if c = '\\' then
    let taken :=
      if !raw && Scan.begins cs "N\x7b" then 1 + Scan.through ['}'] (cs.drop 1)
      else if Scan.begins cs "\x7b" || Scan.begins cs "\x7d" then 0
      else 1
    ⟨none, taken, s⟩
  else if c = '{' && Scan.begins cs "\x7b" || c = '}' then ⟨none, if c = '{' then 1 else 0, s⟩
  else if c = '{' then ⟨some (.opens .substitution), 0, .code .substitution :: s⟩
  else if c = quote && (!triple || [quote, quote].isPrefixOf cs) then
    ⟨some (.closes (.quoted (some .string))), if triple then 2 else 0, s.tail⟩
  else ⟨none, 0, s⟩

/-- A step inside the format of a substitution, which ends with the substitution. -/
def format (s : State) (c : Char) : LexStep State :=
  if c = '{' then ⟨some (.opens .substitution), 0, .code .substitution :: s⟩
  else if c = '}' then ⟨some (.closes .substitution), 0, s.drop 2⟩
  else ⟨none, 0, s⟩

/-- The lexer of Python. -/
def lexer : Lexer State := fun s c cs =>
  match s with
  | .formatted quote triple raw :: _ => formatted quote triple raw s c cs
  | .format :: _ => format s c
  | _ => code s c cs

end Concord.Source.Python
