import Concord.Literal.Basic
import Concord.Text.Position

/-!
# Call sites

A call site is a call of a localization function whose first argument is a literal: the key that is
asked for, and where it, the literal and the call stand.
-/

namespace Concord

/-- A call of a localization function with a fixed key. The location covers the inside of the
literal. -/
structure CallSite where
  key : String
  location : Location
  literalRange : Range
  callRange : Range
  style : LiteralStyle
deriving DecidableEq, Repr, Inhabited

namespace CallSite

/-- Whether the key can be replaced without its delimiters: its range lies in the range of the
literal and is not all of it. -/
def isolated (s : CallSite) : Bool :=
  s.literalRange.encloses s.location.range && s.literalRange != s.location.range

end CallSite

end Concord
