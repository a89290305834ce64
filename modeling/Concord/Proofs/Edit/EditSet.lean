import Concord.Proofs.Edit.InMemory
import Concord.Proofs.Repeats

/-!
# What an edit set holds

Putting an edit at its place keeps a list of edits in strictly increasing order
(`TextEdit.increasing_insertInto`) and adds that edit alone (`TextEdit.mem_insertInto`). So the
edits of a file are the distinct edits pushed for it (`EditSet.mem_editsFor_foldl_push`), in
increasing order (`EditSet.Proper.increasing_editsFor`), and an edit set that is made by pushing
edits is determined by which edits it holds (`EditSet.Proper.ext`).
-/

namespace Concord

open Std

namespace TextEdit

/-- Whether edits stand in strictly increasing order. -/
def Increasing (es : List TextEdit) : Prop := es.Pairwise fun a b => compare a b = .lt

theorem Increasing.nodup {es : List TextEdit} (h : Increasing es) : es.Nodup := by
  have hid : IncreasingBy id es := h
  exact hid.nodup

theorem mem_insertInto {e a : TextEdit} {es : List TextEdit} :
    a ∈ insertInto e es ↔ a = e ∨ a ∈ es := by
  induction es with
  | nil => simp [insertInto]
  | cons b rest ih =>
    rw [insertInto]
    split
    · rw [List.mem_cons]
    · next heq =>
      obtain rfl : e = b := LawfulEqCmp.eq_of_compare heq
      rw [List.mem_cons, ← or_assoc, or_self]
    · rw [List.mem_cons, ih, List.mem_cons]
      exact or_left_comm

/-- **An edit put at its place keeps the order.** -/
theorem increasing_insertInto (e : TextEdit) {es : List TextEdit} (h : Increasing es) :
    Increasing (insertInto e es) := by
  induction es with
  | nil => exact List.pairwise_singleton _ _
  | cons b rest ih =>
    obtain ⟨hhead, htail⟩ := List.pairwise_cons.1 h
    rw [insertInto]
    split
    · next hlt =>
      refine List.pairwise_cons.2 ⟨fun a ha => ?_, h⟩
      rcases List.mem_cons.1 ha with rfl | ha
      · exact hlt
      · exact TransCmp.lt_trans hlt (hhead a ha)
    · exact h
    · next hgt =>
      refine List.pairwise_cons.2 ⟨fun a ha => ?_, ih htail⟩
      rcases mem_insertInto.1 ha with rfl | ha
      · exact OrientedCmp.lt_of_gt hgt
      · exact hhead a ha

/-- Putting an edit at its place is sorting it in and dropping repetitions. -/
theorem insertInto_eq_dropRepeats (e : TextEdit) {es : List TextEdit} (h : Increasing es) :
    insertInto e es =
      dropRepeats id ((es ++ [e]).mergeSort fun a b => (compare a b).isLE) := by
  refine eq_of_increasing (increasing_insertInto e h)
    (increasingBy_dropRepeats (orderedBy_mergeSort id (es ++ [e]))) fun a => ?_
  rw [mem_insertInto, mem_dropRepeats, List.mem_mergeSort, List.mem_append, List.mem_singleton]
  exact or_comm

end TextEdit

namespace EditSet

section Push

variable {α : Type} (place : α → String) (edit : α → Range × String) (xs : List α) (s : EditSet)
  (file : String)

theorem editsFor_push (range : Range) (newText q : String) :
    (s.push file range newText).editsFor q =
      if q = file then TextEdit.insertInto ⟨range, newText⟩ (s.editsFor file)
      else s.editsFor q := by
  rw [editsFor, get?_push]
  split
  · rfl
  · rfl

theorem mem_editsFor_foldl_push {e : TextEdit} :
    e ∈ (xs.foldl (fun s x => s.push (place x) (edit x).1 (edit x).2) s).editsFor file ↔
      e ∈ s.editsFor file ∨ ∃ x ∈ xs, place x = file ∧ e = ⟨(edit x).1, (edit x).2⟩ := by
  induction xs generalizing s with
  | nil => simp
  | cons x xs ih =>
    rw [List.foldl_cons, ih, editsFor_push]
    by_cases hx : place x = file
    · rw [if_pos hx.symm, TextEdit.mem_insertInto, hx]
      simp only [List.mem_cons, exists_eq_or_imp, hx, true_and]
      rw [or_assoc, or_left_comm]
    · rw [if_neg (Ne.symm hx)]
      simp only [List.mem_cons, exists_eq_or_imp, hx, false_and, false_or]

end Push

/-! ### Sets made by pushing -/

/-- That every file of an edit set has edits, in strictly increasing order. -/
def Proper (s : EditSet) : Prop :=
  ∀ file es, s.byFile.get? file = some es → es ≠ [] ∧ TextEdit.Increasing es

theorem proper_empty : empty.Proper := fun _ _ h => nomatch h

theorem Proper.push {s : EditSet} (h : s.Proper) (file : String) (range : Range)
    (newText : String) : (s.push file range newText).Proper := by
  intro q es hes
  rw [get?_push] at hes
  split at hes
  · obtain rfl := Option.some.inj hes
    refine ⟨List.ne_nil_of_mem (TextEdit.mem_insertInto.2 (.inl rfl)),
      TextEdit.increasing_insertInto _ ?_⟩
    cases hold : s.byFile.get? file with
    | none => exact List.Pairwise.nil
    | some old => exact (h file old hold).2
  · exact h q es hes

theorem Proper.foldl_push {α : Type} (place : α → String) (edit : α → Range × String)
    (xs : List α) {s : EditSet} (h : s.Proper) :
    (xs.foldl (fun s x => s.push (place x) (edit x).1 (edit x).2) s).Proper := by
  induction xs generalizing s with
  | nil => exact h
  | cons x xs ih => exact ih (h.push _ _ _)

theorem Proper.increasing_editsFor {s : EditSet} (h : s.Proper) (file : String) :
    TextEdit.Increasing (s.editsFor file) := by
  rw [editsFor]
  cases hes : s.byFile.get? file with
  | none => exact List.Pairwise.nil
  | some es => exact (h file es hes).2

/-- A file is edited exactly when there is an edit of it. -/
theorem Proper.contains_iff {s : EditSet} (h : s.Proper) {file : String} :
    s.byFile.contains file ↔ ∃ e, e ∈ s.editsFor file := by
  rw [Dict.contains, editsFor]
  cases hes : s.byFile.get? file with
  | none => simp
  | some es =>
    obtain ⟨e, he⟩ := List.exists_mem_of_ne_nil es (h file es hes).1
    exact ⟨fun _ => ⟨e, he⟩, fun _ => rfl⟩

/-- **An edit set that is made by pushing edits is determined by the edits in it.** -/
theorem Proper.ext {s t : EditSet} (hs : s.Proper) (ht : t.Proper)
    (hmem : ∀ file e, e ∈ s.editsFor file ↔ e ∈ t.editsFor file) : s = t := by
  have heq : ∀ file, s.editsFor file = t.editsFor file := fun file =>
    eq_of_increasing (hs.increasing_editsFor file) (ht.increasing_editsFor file) (hmem file)
  have hcontains : ∀ file, (s.byFile.get? file).isSome = (t.byFile.get? file).isSome := by
    intro file
    have h : s.byFile.contains file ↔ ∃ e, e ∈ s.editsFor file := hs.contains_iff
    rw [heq, ← ht.contains_iff] at h
    exact Bool.eq_iff_iff.2 h
  have hget : ∀ file, s.byFile.get? file = t.byFile.get? file := by
    intro file
    have hedits := heq file
    have hsame := hcontains file
    rw [editsFor, editsFor] at hedits
    cases hes : s.byFile.get? file <;> cases hes' : t.byFile.get? file <;> simp_all
  obtain ⟨d⟩ := s
  obtain ⟨d'⟩ := t
  exact congrArg EditSet.mk (Dict.ext_get? hget)

end EditSet

end Concord
