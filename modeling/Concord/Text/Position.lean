import Concord.Text.Measure

/-!
# Positions, ranges and locations

Lines are counted from zero, and columns count UTF-16 code units. A range is half-open; its two
ends are in order when it was built by `Range.between`, which swaps them if need be.
-/

namespace Concord

/-- A place in a text: line and column, both from zero. -/
structure Position where
  line : Nat
  column : Nat
deriving DecidableEq, Repr, Inhabited

namespace Position

/-- The beginning of a text. -/
def zero : Position := ⟨0, 0⟩

instance : Ord Position := ⟨compareLex (compareOn Position.line) (compareOn Position.column)⟩

instance : LE Position := leOfOrd

instance : LT Position := ltOfOrd

instance : DecidableRel (α := Position) (· ≤ ·) := fun _ _ => inferInstanceAs (Decidable (_ = _))

instance : DecidableRel (α := Position) (· < ·) := fun _ _ => inferInstanceAs (Decidable (_ = _))

end Position

/-- A half-open range of a text: `stop` is the first place after it. -/
structure Range where
  start : Position
  stop : Position
deriving DecidableEq, Repr, Inhabited

namespace Range

/-- The range between two places, in whichever order they come. -/
def between (p q : Position) : Range := if q < p then ⟨q, p⟩ else ⟨p, q⟩

/-- The empty range at the beginning of a text. -/
def zero : Range := ⟨.zero, .zero⟩

instance : Ord Range := ⟨compareLex (compareOn Range.start) (compareOn Range.stop)⟩

/-- Whether a range holds nothing. -/
def isEmpty (r : Range) : Bool := r.start = r.stop

/-- Whether a place lies in the range, its end included: a cursor just after the last character
still counts. -/
def touches (r : Range) (p : Position) : Bool := r.start ≤ p && p ≤ r.stop

/-- Whether another range lies entirely within this one. -/
def encloses (r inner : Range) : Bool := r.start ≤ inner.start && inner.stop ≤ r.stop

/-- A range as text, counted from one: `1:1-2:5`. -/
def render (r : Range) : String :=
  s!"{r.start.line + 1}:{r.start.column + 1}-{r.stop.line + 1}:{r.stop.column + 1}"

end Range

/-- A range inside a file. -/
structure Location where
  file : String
  range : Range
deriving DecidableEq, Repr, Inhabited

namespace Location

instance : Ord Location := ⟨compareLex (compareOn Location.file) (compareOn Location.range)⟩

/-- Where a location starts, counted from one: `locales/ja.po:3:7`. -/
def render (l : Location) : String :=
  s!"{l.file}:{l.range.start.line + 1}:{l.range.start.column + 1}"

end Location

end Concord
