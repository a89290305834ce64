/-!
# Repetitions

Of neighbours with one key only the first is kept.
-/

namespace Concord

universe u v

/-- A list without the elements whose key is that of the element kept before them. -/
def dropRepeatsAfter {α : Type u} {κ : Type v} [DecidableEq κ] (key : α → κ) (last : κ) :
    List α → List α
  | [] => []
  | a :: rest =>
    if key a = last then dropRepeatsAfter key last rest
    else a :: dropRepeatsAfter key (key a) rest

/-- A list without the elements whose key is that of their neighbour to the left. -/
def dropRepeats {α : Type u} {κ : Type v} [DecidableEq κ] (key : α → κ) : List α → List α
  | [] => []
  | a :: rest => a :: dropRepeatsAfter key (key a) rest

theorem dropRepeatsAfter_sublist {α : Type u} {κ : Type v} [DecidableEq κ] (key : α → κ)
    (last : κ) (l : List α) : (dropRepeatsAfter key last l).Sublist l := by
  induction l generalizing last with
  | nil => exact List.Sublist.slnil
  | cons a rest ih =>
    rw [dropRepeatsAfter]
    split
    · exact (ih last).cons a
    · exact (ih (key a)).cons_cons a

/-- Dropping repetitions adds nothing. -/
theorem dropRepeats_sublist {α : Type u} {κ : Type v} [DecidableEq κ] (key : α → κ) (l : List α) :
    (dropRepeats key l).Sublist l := by
  cases l with
  | nil => exact List.Sublist.slnil
  | cons a rest => exact (dropRepeatsAfter_sublist key (key a) rest).cons_cons a

end Concord
