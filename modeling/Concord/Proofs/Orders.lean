import Concord.Diagnostic
import Concord.Edit.Basic
import Mathlib.Logic.Basic

/-!
# The orders of places, edits and findings

Places, ranges, edits and findings are compared field by field. Each of these comparisons is a
linear order in which only equal things compare equal, so a list in increasing order holds nothing
twice, and a sorted list is determined by what is in it.
-/

namespace Concord

open Std

/-- What compares equal in two fields agrees in both. -/
theorem eq_and_eq_of_compareLex {α β γ : Type} [Ord β] [Ord γ] [LawfulEqOrd β] [LawfulEqOrd γ]
    {f : α → β} {g : α → γ} {a b : α}
    (h : compareLex (compareOn f) (compareOn g) a b = .eq) : f a = f b ∧ g a = g b := by
  obtain ⟨hf, hg⟩ := Ordering.then_eq_eq.1 h
  exact ⟨LawfulEqCmp.eq_of_compare hf, LawfulEqCmp.eq_of_compare hg⟩

/-- In two fields, the second one decides where the first ones agree. -/
theorem compareLex_eq_lt_iff {α β γ : Type} [Ord β] [Ord γ] [LawfulEqOrd β] {f : α → β} {g : α → γ}
    {a b : α} : compareLex (compareOn f) (compareOn g) a b = .lt ↔
      compare (f a) (f b) = .lt ∨ f a = f b ∧ compare (g a) (g b) = .lt := by
  rw [compareLex, Ordering.then_eq_lt]
  simp only [compareOn, LawfulEqCmp.compare_eq_iff_eq]

/-! ### Places and edits -/

instance : TransOrd Position :=
  inferInstanceAs (TransCmp (compareLex (compareOn Position.line) (compareOn Position.column)))

instance : LawfulEqOrd Position where
  eq_of_compare {p q} h := by
    obtain ⟨hline, hcolumn⟩ := eq_and_eq_of_compareLex h
    exact congrArg₂ Position.mk hline hcolumn

instance : TransOrd Range :=
  inferInstanceAs (TransCmp (compareLex (compareOn Range.start) (compareOn Range.stop)))

instance : LawfulEqOrd Range where
  eq_of_compare {r s} h := by
    obtain ⟨hstart, hstop⟩ := eq_and_eq_of_compareLex h
    exact congrArg₂ Range.mk hstart hstop

instance : TransOrd Location :=
  inferInstanceAs (TransCmp (compareLex (compareOn Location.file) (compareOn Location.range)))

instance : LawfulEqOrd Location where
  eq_of_compare {l m} h := by
    obtain ⟨hfile, hrange⟩ := eq_and_eq_of_compareLex h
    exact congrArg₂ Location.mk hfile hrange

/-- Ranges come in the order of their starts, and from one place on in that of their ends. -/
theorem Range.compare_eq_lt_iff {r s : Range} :
    compare r s = .lt ↔ r.start < s.start ∨ r.start = s.start ∧ r.stop < s.stop :=
  compareLex_eq_lt_iff

/-- In one file, what starts earlier comes earlier. -/
theorem Location.compare_eq_lt (file : String) {r s : Range} (h : r.start < s.start) :
    compare (⟨file, r⟩ : Location) ⟨file, s⟩ = .lt :=
  compareLex_eq_lt_iff.2 (.inr ⟨rfl, Range.compare_eq_lt_iff.2 (.inl h)⟩)

instance : TransOrd TextEdit :=
  inferInstanceAs (TransCmp (compareLex (compareOn TextEdit.range) (compareOn TextEdit.newText)))

instance : LawfulEqOrd TextEdit where
  eq_of_compare {d e} h := by
    obtain ⟨hrange, htext⟩ := eq_and_eq_of_compareLex h
    exact congrArg₂ TextEdit.mk hrange htext

/-! ### Findings -/

instance : TransOrd Severity := inferInstanceAs (TransCmp (compareOn Severity.rank))

instance : LawfulEqOrd Severity where
  eq_of_compare {s t} h := by
    have hrank : compare s.rank t.rank = .eq := h
    rw [Std.compare_eq_iff_eq] at hrank
    revert hrank
    cases s <;> cases t <;> decide

instance : TransOrd Rule := inferInstanceAs (TransCmp (compareOn Rule.rank))

instance : LawfulEqOrd Rule where
  eq_of_compare {r s} h := by
    have hrank : compare r.rank s.rank = .eq := h
    rw [Std.compare_eq_iff_eq] at hrank
    revert hrank
    cases r <;> cases s <;> decide

instance : TransOrd Diagnostic :=
  inferInstanceAs (TransCmp (compareLex (compareOn Diagnostic.range) <|
    compareLex (compareOn Diagnostic.severity) <|
      compareLex (compareOn Diagnostic.rule) (compareOn Diagnostic.message)))

instance : LawfulEqOrd Diagnostic where
  eq_of_compare {d e} h := by
    obtain ⟨hrange, h⟩ := Ordering.then_eq_eq.1 h
    obtain ⟨hseverity, h⟩ := Ordering.then_eq_eq.1 h
    obtain ⟨hrule, hmessage⟩ := eq_and_eq_of_compareLex h
    replace hrange : compare d.range e.range = .eq := hrange
    replace hseverity : compare d.severity e.severity = .eq := hseverity
    rw [Std.compare_eq_iff_eq] at hrange hseverity
    cases d
    cases e
    simp_all

end Concord
