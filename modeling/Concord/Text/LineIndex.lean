import Concord.Text.Position

/-!
# From byte offsets to positions and back

A line ends with its line feed. `positionAt` walks to a byte offset and says where it stands;
`offsetAt?` walks to a line and then along it. The column just after a line feed is accepted and
is the beginning of the next line.

* `positionAt` – offsets past the end stop at the end, offsets inside a character at its start;
* `offsetAt?` – nothing for a line that does not exist, a column past the end of its line, or one
  inside a surrogate pair;
* `rangeOf` – the range between two byte offsets.
-/

namespace Concord.Text

/-- The position after one more character. -/
def advance (p : Position) (c : Char) : Position :=
  if c = '\n' then ⟨p.line + 1, 0⟩ else ⟨p.line, p.column + charUnits16 c⟩

/-- The position `offset` bytes further on in a text that begins at `p`. -/
def positionFrom (p : Position) : List Char → Nat → Position
  | [], _ => p
  | c :: cs, offset =>
    if c.utf8Size ≤ offset then positionFrom (advance p c) cs (offset - c.utf8Size) else p

/-- The position of a byte offset. -/
def positionAt (text : List Char) (offset : Nat) : Position := positionFrom .zero text offset

/-- The range between two byte offsets. -/
def rangeOf (text : List Char) (start stop : Nat) : Range :=
  .between (positionAt text start) (positionAt text stop)

/-- What follows the first `n` line feeds, with the number of bytes up to there. -/
def lineFrom (offset : Nat) : Nat → List Char → Option (Nat × List Char)
  | 0, text => some (offset, text)
  | _ + 1, [] => none
  | n + 1, c :: cs => lineFrom (offset + c.utf8Size) (if c = '\n' then n else n + 1) cs

/-- The byte offset `column` units further on in the line that begins at `offset`. -/
def columnFrom (offset : Nat) : Nat → List Char → Option Nat
  | 0, _ => some offset
  | _ + 1, [] => none
  | column + 1, c :: cs =>
    if c = '\n' then if column = 0 then some (offset + c.utf8Size) else none
    else if charUnits16 c ≤ column + 1 then
      columnFrom (offset + c.utf8Size) (column + 1 - charUnits16 c) cs
    else none

/-- The byte offset of a position. -/
def offsetAt? (text : List Char) (p : Position) : Option Nat :=
  match lineFrom 0 p.line text with
  | none => none
  | some (offset, line) => columnFrom offset p.column line

/-- The number of lines: one more than the number of line feeds. -/
def lineCount (text : List Char) : Nat := text.count '\n' + 1

/-- The lines, without their line feeds. -/
def lines : List Char → List (List Char)
  | [] => [[]]
  | c :: cs =>
    if c = '\n' then [] :: lines cs
    else match lines cs with
      | [] => [[c]]
      | line :: rest => (c :: line) :: rest

end Concord.Text
