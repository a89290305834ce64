import Concord.Literal.Basic

/-!
# From a key to the inside of a literal

A key is escaped for the style of the literal it goes into. A raw literal cannot hold every key:
not one that contains the delimiter or the quote of a one-quote delimiter, ends with the quote, or,
after a prefix, ends with a backslash.

* `escape?` – the inside, if the style can hold the key;
* `render?` – the whole literal.
-/

namespace Concord.Literal

/-- Whether a text occurs in another. -/
def occursIn (needle : List Char) : List Char → Bool
  | [] => needle.isEmpty
  | c :: cs => needle.isPrefixOf (c :: cs) || occursIn needle cs

/-- How a character is written between quotes with backslash escapes. A dollar sign is escaped
between backquotes, where it could begin a substitution. -/
def escapeChar (quote c : Char) : List Char :=
  if c = '\\' then ['\\', '\\']
  else if c = '\n' then ['\\', 'n']
  else if c = '\r' then ['\\', 'r']
  else if c = '\t' then ['\\', 't']
  else if c = '$' ∧ quote = '\x60' then ['\\', '$']
  else if c = quote then ['\\', c]
  else [c]

/-- How a character is written where a quote is doubled. -/
def doubleQuote (c : Char) : List Char := if c = '"' then ['"', '"'] else [c]

/-- Whether a raw literal of a style cannot hold a key. -/
def rawConflict (key : List Char) (style : LiteralStyle) : Bool :=
  let quote := style.quoteChar
  occursIn style.delimiter.toList key
    || (style.delimiter.utf8ByteSize = 1 && key.contains quote)
    || key.getLast? = some quote
    || (style.lead ≠ "" && key.getLast? = some '\\')

/-- The inside of a literal for a key, if the style can hold it. -/
def escape? (key : List Char) (style : LiteralStyle) : Option (List Char) :=
  match style.escape with
  | .raw => if rawConflict key style then none else some key
  | .doubledQuote => some (key.flatMap doubleQuote)
  | .backslash => some (key.flatMap (escapeChar style.quoteChar))

/-- The literal for a key, if the style can hold it. -/
def render? (key : List Char) (style : LiteralStyle) : Option (List Char) :=
  (escape? key style).map style.wrap

/-- The literal for a key between double quotes, which hold every key. -/
def doubleQuoted (key : List Char) : List Char :=
  LiteralStyle.doubleQuoted.wrap (key.flatMap (escapeChar '"'))

end Concord.Literal
