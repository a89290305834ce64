import Concord.Proofs.Edit.EditSet
import Concord.Proofs.Text.ByteOrder
import Mathlib.Data.List.Dedup

/-!
# Edit sets made by pushing

What was pushed into an edit set can be listed: the edits of all its files, each with its file
(`EditSet.listed`). Every push is in the list once, however often it was made, and the files and the
edits of each file come in increasing order. So the set holds what was pushed and nothing else of
how it was pushed (`EditSet.ofPushes_collects`): neither the order of the pushes nor their number
can be told from it.
-/

namespace Concord

/-- **Edits come in the order of their ranges**, and those of one range in the order of the bytes of
their texts. -/
theorem TextEdit.compare_eq_lt_iff {a b : TextEdit} :
    compare a b = .lt ↔ compare a.range b.range = .lt ∨
      a.range = b.range ∧ Text.utf8 a.newText < Text.utf8 b.newText := by
  have htext : compare a.newText b.newText = .lt ↔ a.newText < b.newText :=
    compareOfLessAndEq_eq_lt
  rw [← Text.lt_iff_utf8_lt, ← htext]
  exact compareLex_eq_lt_iff

namespace EditSet

/-- The edit set that is made by pushing edits of files one after the other. -/
def ofPushes (pushes : List (String × TextEdit)) : EditSet :=
  pushes.foldl (fun s x => s.push x.1 x.2.range x.2.newText) .empty

section Pushes

variable {pushes : List (String × TextEdit)} {s : EditSet} {file : String} {e : TextEdit}

theorem proper_ofPushes (pushes : List (String × TextEdit)) : (ofPushes pushes).Proper :=
  Proper.foldl_push Prod.fst (fun x : String × TextEdit => (x.2.range, x.2.newText)) pushes
    proper_empty

/-- **An edit set made by pushing edits holds these edits.** -/
theorem mem_editsFor_ofPushes : e ∈ (ofPushes pushes).editsFor file ↔ (file, e) ∈ pushes := by
  have hmem := mem_editsFor_foldl_push Prod.fst
    (fun x : String × TextEdit => (x.2.range, x.2.newText)) pushes .empty file (e := e)
  have hnone : e ∉ empty.editsFor file := List.not_mem_nil
  rw [or_iff_right hnone] at hmem
  refine hmem.trans ?_
  constructor
  · rintro ⟨⟨file, e⟩, hpush, rfl, rfl⟩
    exact hpush
  · exact fun hpush => ⟨(file, e), hpush, rfl, rfl⟩

/-- **Which edits were pushed is all that matters.** -/
theorem ofPushes_congr {pushes' : List (String × TextEdit)}
    (h : ∀ x, x ∈ pushes' ↔ x ∈ pushes) : ofPushes pushes' = ofPushes pushes := by
  refine (proper_ofPushes pushes').ext (proper_ofPushes pushes) fun file e => ?_
  rw [mem_editsFor_ofPushes, mem_editsFor_ofPushes, h]

/-- Pushing an edit that is there changes nothing. -/
theorem Proper.push_eq_self (h : s.Proper) (he : e ∈ s.editsFor file) :
    s.push file e.range e.newText = s := by
  refine (h.push file e.range e.newText).ext h fun q d => ?_
  rw [editsFor_push]
  split
  · next hq =>
    rw [hq, TextEdit.mem_insertInto]
    exact or_iff_right_of_imp fun hd => hd ▸ he
  · rfl

/-! ### The edits of all files -/

/-- The edits of all files, each with its file. -/
def listed (s : EditSet) : List (String × TextEdit) :=
  s.files.flatMap fun f => f.2.map (Prod.mk f.1)

theorem mem_listed : (file, e) ∈ s.listed ↔ e ∈ s.editsFor file := by
  simp only [listed, files, List.mem_flatMap, List.mem_map, Prod.mk.injEq]
  rw [editsFor]
  constructor
  · rintro ⟨⟨file', es⟩, hfile, e', he', rfl, rfl⟩
    rw [Dict.get?_eq_some_iff.2 hfile]
    exact he'
  · intro he
    cases hes : s.byFile.get? file with
    | none => simp [hes] at he
    | some es =>
      rw [hes] at he
      exact ⟨(file, es), Dict.get?_eq_some_iff.1 hes, e, he, rfl, rfl⟩

theorem Proper.nodup_listed (h : s.Proper) : s.listed.Nodup := by
  refine Dict.nodup_flatMap_entries Prod.fst (fun f hf => ?_) fun f _ x hx => ?_
  · have hincreasing := (h f.1 f.2 (Dict.get?_eq_some_iff.2 hf)).2
    exact hincreasing.nodup.map fun _ _ heq => (Prod.mk.inj heq).2
  · obtain ⟨e, -, rfl⟩ := List.mem_map.1 hx
    rfl

theorem length_listed (s : EditSet) : s.listed.length = s.size := by
  rw [listed, size, List.length_flatMap, ← List.sum_eq_foldl, Dict.values, List.map_map]
  simp only [List.length_map]
  rfl

/-- **The size of an edit set is the number of different edits pushed.** -/
theorem size_ofPushes (pushes : List (String × TextEdit)) :
    (ofPushes pushes).size = pushes.dedup.length := by
  rw [← length_listed]
  refine List.Perm.length_eq ((List.perm_ext_iff_of_nodup (proper_ofPushes pushes).nodup_listed
    (List.nodup_dedup pushes)).2 ?_)
  rintro ⟨file, e⟩
  rw [mem_listed, mem_editsFor_ofPushes, List.mem_dedup]

end Pushes

/-- That an edit set collects some pushes. -/
structure Collects (s : EditSet) (pushes : List (String × TextEdit)) : Prop where
  /-- The files are those of the pushes, -/
  mem_files (file : String) : file ∈ s.files.map Prod.fst ↔ ∃ e, (file, e) ∈ pushes
  /-- in the order of their bytes. -/
  files_increase : (s.files.map Prod.fst).Pairwise fun file file' =>
    Text.utf8 file < Text.utf8 file'
  /-- The edits of a file are those pushed for it, -/
  mem_edits (file : String) (es : List TextEdit) : (file, es) ∈ s.files →
    ∀ e, e ∈ es ↔ (file, e) ∈ pushes
  /-- in strictly increasing order: by where they start, then by where they stop, then by the bytes
  of their texts. -/
  edits_increase (file : String) (es : List TextEdit) : (file, es) ∈ s.files →
    es.Pairwise fun a b =>
      (a.range.start < b.range.start ∨
        a.range.start = b.range.start ∧ a.range.stop < b.range.stop) ∨
      a.range = b.range ∧ Text.utf8 a.newText < Text.utf8 b.newText
  /-- There are as many edits as different pushes. -/
  size_eq : s.size = pushes.dedup.length
  /-- One more push sorts the edit in among those of its file and drops repetitions. -/
  editsFor_push (file : String) (e : TextEdit) :
    (s.push file e.range e.newText).editsFor file =
      dropRepeats id ((s.editsFor file ++ [e]).mergeSort fun a b => (compare a b).isLE)
  /-- If it was made before, it changes nothing. -/
  push_eq_self (file : String) (e : TextEdit) : (file, e) ∈ pushes →
    s.push file e.range e.newText = s

/-- **An edit set depends only on the set of edits pushed**, not on their order or repetition. -/
theorem ofPushes_collects (pushes : List (String × TextEdit)) :
    (ofPushes pushes).Collects pushes ∧
      ∀ pushes', (∀ x, x ∈ pushes' ↔ x ∈ pushes) → ofPushes pushes' = ofPushes pushes := by
  have hproper := proper_ofPushes pushes
  have hedits : ∀ {file es}, (file, es) ∈ (ofPushes pushes).files →
      (ofPushes pushes).byFile.get? file = some es := fun h => Dict.get?_eq_some_iff.2 h
  refine ⟨⟨fun file => ?_, ?_, fun file es hes e => ?_, fun file es hes => ?_, size_ofPushes pushes,
    fun file e => ?_, fun file e he => ?_⟩, fun _ => ofPushes_congr⟩
  · rw [show (ofPushes pushes).files.map Prod.fst = (ofPushes pushes).byFile.keys from rfl,
      ← Dict.contains_iff, hproper.contains_iff]
    simp only [mem_editsFor_ofPushes]
  · exact (List.pairwise_map.2 (ofPushes pushes).byFile.sorted).imp Text.lt_iff_utf8_lt.1
  · rw [← mem_editsFor_ofPushes, editsFor, hedits hes]
    rfl
  · refine (hproper file es (hedits hes)).2.imp fun hlt => ?_
    rw [← Range.compare_eq_lt_iff]
    exact TextEdit.compare_eq_lt_iff.1 hlt
  · rw [EditSet.editsFor_push, if_pos rfl]
    exact TextEdit.insertInto_eq_dropRepeats e (hproper.increasing_editsFor file)
  · exact hproper.push_eq_self (mem_editsFor_ofPushes.2 he)

end EditSet

end Concord
