import Concord.Proofs.Edit.EditSet

/-!
# The plan of a rename

A rename that is neither refused nor idle asks for one edit at each call site of the old key and for
one at each location of it in a catalog (`Rename.Demanded`). Its plan holds these edits and no
others (`exists_planRename_proper`), so it depends only on which call sites, locations and keys it
is made from, not on their order or on how often they are listed (`planRename_congr`).
-/

namespace Concord

namespace Rename

/-- That a rename asks for an edit of a file. -/
def Demanded (old new : String) (sites : List CallSite) (locations : List Location)
    (file : String) (edit : TextEdit) : Prop :=
  (∃ s ∈ sites, s.key = old ∧ s.location.file = file ∧
    edit = ⟨(siteEdit new s).1, (siteEdit new s).2⟩) ∨
  ∃ l ∈ locations, l.file = file ∧ edit = ⟨l.range, catalogText new⟩

end Rename

variable {old new : String} {sites : List CallSite} {locations : List Location}
  {existing : TextSet}

theorem planRename_eq_emptyName_iff :
    planRename old new sites locations existing = .error .emptyName ↔ new = "" := by
  rw [planRename]
  split
  · next h => exact ⟨fun _ => h, fun _ => rfl⟩
  · next h =>
    refine ⟨fun hplan => ?_, fun hnew => absurd hnew h⟩
    split at hplan
    · simp at hplan
    · split at hplan <;> simp at hplan

theorem planRename_self (hnew : new ≠ "") :
    planRename new new sites locations existing = .ok .empty := by
  rw [planRename, if_neg hnew, if_pos rfl]

theorem planRename_eq_conflict_iff (hnew : new ≠ "") (hne : new ≠ old) :
    planRename old new sites locations existing = .error (.conflict old new) ↔
      existing.contains new := by
  rw [planRename, if_neg hnew, if_neg hne]
  split
  · next h => exact ⟨fun _ => h, fun _ => rfl⟩
  · next h => exact ⟨fun hplan => by simp at hplan, fun hknown => absurd hknown h⟩

/-- **A plan holds the edits that the rename asks for**, each of them once. -/
theorem exists_planRename_proper (sites : List CallSite) (locations : List Location)
    (hnew : new ≠ "") (hne : new ≠ old) (hfree : ¬ existing.contains new) :
    ∃ edits, planRename old new sites locations existing = .ok edits ∧ edits.Proper ∧
      ∀ file edit, edit ∈ edits.editsFor file ↔
        Rename.Demanded old new sites locations file edit := by
  rw [planRename, if_neg hnew, if_neg hne, if_neg hfree]
  refine ⟨_, rfl, ?_, fun file edit => ?_⟩
  · exact EditSet.Proper.foldl_push Location.file (fun l => (l.range, Rename.catalogText new)) _
      (EditSet.Proper.foldl_push (fun s : CallSite => s.location.file) (Rename.siteEdit new) _
        EditSet.proper_empty)
  · have hcode := EditSet.mem_editsFor_foldl_push (fun s : CallSite => s.location.file)
      (Rename.siteEdit new) (sites.filter fun s => s.key = old) .empty file (e := edit)
    have hall := EditSet.mem_editsFor_foldl_push Location.file
      (fun l => (l.range, Rename.catalogText new)) locations
      ((sites.filter fun s => s.key = old).foldl (fun edits s =>
        edits.push s.location.file (Rename.siteEdit new s).1 (Rename.siteEdit new s).2) .empty)
      file (e := edit)
    have hnone : edit ∉ EditSet.empty.editsFor file := List.not_mem_nil
    rw [hall, hcode, or_iff_right hnone, Rename.Demanded]
    simp only [List.mem_filter, decide_eq_true_eq, and_assoc]

/-- **A plan depends on which call sites, locations and keys there are**, and on nothing else of the
lists. -/
theorem planRename_congr {sites' : List CallSite} {locations' : List Location}
    {existing' : TextSet} (hsites : ∀ s, s ∈ sites' ↔ s ∈ sites)
    (hlocations : ∀ l, l ∈ locations' ↔ l ∈ locations)
    (hexisting : existing'.contains new ↔ existing.contains new) :
    planRename old new sites' locations' existing' =
      planRename old new sites locations existing := by
  by_cases hnew : new = ""
  · rw [planRename_eq_emptyName_iff.2 hnew, planRename_eq_emptyName_iff.2 hnew]
  by_cases hne : new = old
  · subst hne
    rw [planRename_self hnew, planRename_self hnew]
  by_cases hknown : existing.contains new
  · rw [(planRename_eq_conflict_iff hnew hne).2 hknown,
      (planRename_eq_conflict_iff hnew hne).2 (hexisting.2 hknown)]
  · obtain ⟨edits, hplan, hproper, hmem⟩ :=
      exists_planRename_proper sites locations hnew hne hknown
    obtain ⟨edits', hplan', hproper', hmem'⟩ :=
      exists_planRename_proper sites' locations' hnew hne fun h => hknown (hexisting.1 h)
    rw [hplan, hplan']
    refine congrArg Except.ok (hproper'.ext hproper fun file edit => ?_)
    rw [hmem, hmem', Rename.Demanded, Rename.Demanded]
    simp only [hsites, hlocations]

end Concord
