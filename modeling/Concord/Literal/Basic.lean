import Concord.Text.Measure

/-!
# String literals

A string literal is a prefix such as `r` or `@`, an opening delimiter, the inside, and the same
delimiter again. The style records all of that but the inside, so that a key can be written back
the way it was written before.
-/

namespace Concord

/-- How a character that cannot stand for itself is written in a literal. -/
inductive EscapeStyle where
  /-- After a backslash. -/
  | backslash
  /-- A quote is written twice; nothing else is escaped. -/
  | doubledQuote
  /-- Not at all. -/
  | raw
deriving DecidableEq, Repr, Inhabited

/-- The shape of a literal around its inside. -/
structure LiteralStyle where
  lead : String
  delimiter : String
  escape : EscapeStyle
deriving DecidableEq, Repr, Inhabited

namespace LiteralStyle

/-- Double quotes, with backslash escapes. -/
def doubleQuoted : LiteralStyle := ⟨"", "\"", .backslash⟩

/-- The character that the delimiter is made of. -/
def quoteChar (s : LiteralStyle) : Char := s.delimiter.toList.headD '"'

/-- The text of a literal with the given inside. -/
def wrap (s : LiteralStyle) (inner : List Char) : List Char :=
  s.lead.toList ++ s.delimiter.toList ++ inner ++ s.delimiter.toList

end LiteralStyle

end Concord
