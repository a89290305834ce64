import Concord.Dict
import Concord.Text.Position

/-!
# Edits, grouped by file

An `EditSet` holds, for each edited file, the distinct edits in strictly increasing order. Its
content depends on the set of edits pushed and not on their order or repetition.
-/

namespace Concord

/-- Replace a range of a text by new text. -/
structure TextEdit where
  range : Range
  newText : String
deriving DecidableEq, Repr, Inhabited

namespace TextEdit

instance : Ord TextEdit := ⟨compareLex (compareOn TextEdit.range) (compareOn TextEdit.newText)⟩

/-- Put an edit at its place in an ordered list, unless it is there. -/
def insertInto (e : TextEdit) : List TextEdit → List TextEdit
  | [] => [e]
  | a :: rest =>
    match compare e a with
    | .lt => e :: a :: rest
    | .eq => a :: rest
    | .gt => a :: insertInto e rest

end TextEdit

/-- Edits to be made together, per file. -/
structure EditSet where
  byFile : Dict (List TextEdit)
deriving DecidableEq

namespace EditSet

/-- No edit at all. -/
def empty : EditSet := ⟨.empty⟩

instance : Inhabited EditSet := ⟨empty⟩

/-- Add one edit. -/
def push (s : EditSet) (file : String) (range : Range) (newText : String) : EditSet :=
  ⟨s.byFile.upsert file fun old => TextEdit.insertInto ⟨range, newText⟩ (old.getD [])⟩

/-- Whether no file is edited. -/
def isEmpty (s : EditSet) : Bool := s.byFile.isEmpty

/-- The number of edits in all files. -/
def size (s : EditSet) : Nat := (s.byFile.values.map List.length).foldl (· + ·) 0

/-- The number of edited files. -/
def fileCount (s : EditSet) : Nat := s.byFile.size

/-- The edited files in order, each with its edits in order. -/
def files (s : EditSet) : List (String × List TextEdit) := s.byFile.entries

/-- The edits of a file. -/
def editsFor (s : EditSet) (file : String) : List TextEdit := (s.byFile.get? file).getD []

end EditSet

end Concord
