import Concord.Literal.Unescape

/-!
# Taking a literal apart

The prefix is what stands before the first quote character and consists of letters, `@` and `$`.
How many quotes the delimiter has depends on the language: always one, or three where three stand
at the beginning, or as many as stand there if those are three or more. The same delimiter has to
end the literal.
-/

namespace Concord.Literal

/-- Which delimiters of more than one quote a kind of literal may have. -/
structure DelimiterRules where
  /-- Three quotes. -/
  tripleQuotes : Bool
  /-- A run of three or more quotes. -/
  rawRuns : Bool
deriving DecidableEq, Repr, Inhabited

namespace DelimiterRules

/-- Always one quote. -/
def single : DelimiterRules := ⟨false, false⟩

/-- One quote or three. -/
def triple : DelimiterRules := ⟨true, false⟩

/-- One quote or a run of three or more. -/
def runs : DelimiterRules := ⟨false, true⟩

/-- The length of the delimiter, given how many quotes stand at the beginning and how many bytes
the literal has from there on. -/
def delimiterLength (rules : DelimiterRules) (run size : Nat) : Nat :=
  if rules.rawRuns && 3 ≤ run then min run (size / 2)
  else if rules.tripleQuotes && 3 ≤ run then 3
  else 1

end DelimiterRules

/-- A literal taken apart: the key, the bytes of the inside counted from the beginning of the
literal, and the style. -/
structure Parsed where
  key : List Char
  innerStart : Nat
  innerStop : Nat
  style : LiteralStyle
deriving DecidableEq, Repr

/-- Whether a character can open a literal. -/
def isQuote (c : Char) : Bool := c = '"' || c = '\'' || c = '\x60'

/-- Whether a character may stand in a prefix. -/
def isLeadChar (c : Char) : Bool := c.isAlpha || c = '@' || c = '$'

/-- How a literal escapes, given its prefix and the length of its delimiter. -/
def escapeStyleOf (rules : DelimiterRules) (lead : List Char) (delimiterLength : Nat) :
    EscapeStyle :=
  if lead.contains '@' then .doubledQuote
  else if lead.contains 'r' || lead.contains 'R' || (rules.rawRuns && 3 ≤ delimiterLength) then .raw
  else .backslash

/-- Take a literal apart. -/
def parse? (text : List Char) (rules : DelimiterRules) : Option Parsed :=
  let lead := text.takeWhile fun c => !isQuote c
  match text.dropWhile fun c => !isQuote c with
  | [] => none
  | quote :: body =>
    if !lead.all isLeadChar then none
    else
      let rest := quote :: body
      let run := (rest.takeWhile (· == quote)).length
      let n := rules.delimiterLength run (Text.bytes rest)
      let delimiter := rest.take n
      let tail := rest.drop n
      if Text.bytes rest < 2 * n || !delimiter.isSuffixOf tail then none
      else
        let inner := tail.take (tail.length - n)
        let style : LiteralStyle :=
          ⟨String.ofList lead, String.ofList delimiter, escapeStyleOf rules lead n⟩
        let start := Text.bytes lead + n
        some ⟨unescape inner style.escape, start, start + Text.bytes inner, style⟩

end Concord.Literal
