import Concord.Edit.Basic
import Concord.Text.LineIndex

/-!
# Applying edits to a text

The ranges of the edits are resolved to byte spans first; if one of them does not resolve, or two
spans overlap, nothing is changed. Spans that only touch do not overlap. The replacements are made
from the last span to the first, so that none of them moves a span still to be replaced.

* `resolve` – the spans of a list of edits;
* `applyEdits` – the edited text, or why the edits were refused.
-/

namespace Concord

/-- Replace the bytes from `start` to `stop`. -/
structure Span where
  start : Nat
  stop : Nat
  newText : List Char
deriving DecidableEq, Repr, Inhabited

/-- Why a list of edits cannot be applied to a text. -/
inductive EditError where
  | outside (range : Range)
  | overlap (offset : Nat)
deriving DecidableEq, Repr, Inhabited

/-- The wording of a refusal. -/
def EditError.message : EditError → String
  | outside range => s!"edit range {range.render} is outside the document"
  | overlap offset => s!"overlapping edits at byte offset {offset}"

namespace Span

/-- The bytes that an edit replaces. -/
def ofEdit (text : List Char) (e : TextEdit) : Except EditError Span :=
  match Text.offsetAt? text e.range.start, Text.offsetAt? text e.range.stop with
  | some start, some stop => .ok ⟨start, stop, e.newText.toList⟩
  | _, _ => .error (.outside e.range)

/-- Whether a span comes before another or covers the same bytes: they are ordered by where they
start and, of two that start together, by where they stop. -/
def precedes (a b : Span) : Bool := a.start < b.start || (a.start == b.start && a.stop ≤ b.stop)

/-- The beginning of the first span that starts before its predecessor stops. -/
def overlap? : List Span → Option Nat
  | a :: b :: rest => if b.start < a.stop then some b.start else overlap? (b :: rest)
  | _ => none

/-- The text with the bytes of one span replaced. -/
def replaceIn (s : Span) (text : List Char) : List Char :=
  Text.takeBytes s.start text ++ s.newText ++ Text.dropBytes s.stop text

end Span

/-- The spans of a list of edits, in the order of the edits. -/
def resolve (text : List Char) (edits : List TextEdit) : Except EditError (List Span) :=
  edits.mapM (Span.ofEdit text)

/-- The text with all edits made, or why none can be. -/
def applyEdits (text : List Char) (edits : List TextEdit) : Except EditError (List Char) := do
  let spans := (← resolve text edits).mergeSort Span.precedes
  match Span.overlap? spans with
  | some offset => .error (.overlap offset)
  | none => .ok (spans.foldr Span.replaceIn text)

end Concord
