import Concord.Text.Blank
import Concord.Source.Token

/-!
# Measuring tokens

How many characters a comment, a word, a number or a string takes, given what follows its first
character. Every function counts the characters it would take and looks no further.
-/

namespace Concord.Source.Scan

/-- How many characters hold of a property, from the beginning. -/
def run (p : Char → Bool) (cs : List Char) : Nat := (cs.takeWhile p).length

/-- Whether a text begins with another. -/
def begins (cs : List Char) (s : String) : Bool := s.toList.isPrefixOf cs

/-- Up to the end of the line. -/
def toLineEnd (cs : List Char) : Nat := run (· ≠ '\n') cs

/-- Up to and with a closing text. -/
def through (close : List Char) : List Char → Nat
  | [] => 0
  | c :: cs => if close.isPrefixOf (c :: cs) then close.length else through close cs + 1

/-- Up to and with a closing quote; a backslash protects the character after it. -/
def throughQuote (quote : Char) : List Char → Nat
  | [] => 0
  | '\\' :: _ :: cs => throughQuote quote cs + 2
  | c :: cs => if c = quote then 1 else throughQuote quote cs + 1

/-- Up to and with three closing quotes; a backslash protects the character after it. -/
def throughTriple (quote : Char) : List Char → Nat
  | [] => 0
  | '\\' :: _ :: cs => throughTriple quote cs + 2
  | c :: cs =>
    if [quote, quote, quote].isPrefixOf (c :: cs) then 3 else throughTriple quote cs + 1

/-- Up to and with a closing quote that is not written twice. -/
def throughDoubled (quote : Char) : List Char → Nat
  | [] => 0
  | [_] => 1
  | c :: d :: cs =>
    if c = quote then if d = quote then throughDoubled quote cs + 2 else 1
    else throughDoubled quote (d :: cs) + 1

/-- Whether a character separates tokens: a blank, or one without a width. -/
def isGap (c : Char) : Bool :=
  Text.isBlank c || c = '\u200b' || c = '\u2060' || c = '\ufeff'

/-- Whether a character may stand in a name: letters and digits, the underscore and everything
beyond ASCII that separates nothing. -/
def isNameChar (c : Char) : Bool :=
  c.isAlphanum || c = '_' || (c.toNat ≥ 128 && !isGap c)

/-- The rest of a number after its first digit. A point belongs to it if `point` says so of what
follows the point. -/
def number (point : List Char → Bool) (cs : List Char) : Nat :=
  let whole := run isNameChar cs
  match cs.drop whole with
  | '.' :: rest => if point rest then whole + 1 + run isNameChar rest else whole
  | _ => whole

/-- Whether a text begins with a digit. -/
def startsWithDigit : List Char → Bool
  | c :: _ => c.isDigit
  | [] => false

/-- The length of the first of some marks that a text begins with, or one. -/
def mark (marks : List String) (cs : List Char) : Nat :=
  match marks.find? (begins cs) with
  | some m => m.length
  | none => 1

end Concord.Source.Scan
