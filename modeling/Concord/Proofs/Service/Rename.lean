import Concord.Proofs.Attempts
import Concord.Proofs.Consistency.Exact
import Concord.Proofs.Edit.Plan
import Concord.Service

/-!
# A rename over all targets

A service plans one rename for all its targets, from the call sites, locations and keys of all of
them, where what several targets share counts once. That is the same as planning the rename in each
target and uniting the plans (`Service.planRename_union`): whatever the targets share, an edit is in
the plan of the service exactly when some target asks for it. Only the refusal looks further, as a
key that any target knows is taken for all of them.
-/

namespace Concord

namespace EditSet

/-- That an edit set is the union of others: it edits the files that one of them edits, and of each
file it has the edits that one of them has, each of them once and in order. -/
structure IsUnion (union : EditSet) (parts : List EditSet) : Prop where
  files (file : String) : union.byFile.contains file ↔ ∃ p ∈ parts, p.byFile.contains file
  edits (file : String) (edit : TextEdit) :
    edit ∈ union.editsFor file ↔ ∃ p ∈ parts, edit ∈ p.editsFor file
  increasing (file : String) : TextEdit.Increasing (union.editsFor file)

theorem Proper.isUnion {union : EditSet} {parts : List EditSet} (h : union.Proper)
    (hparts : ∀ p ∈ parts, p.Proper) (hedits : ∀ file edit,
      edit ∈ union.editsFor file ↔ ∃ p ∈ parts, edit ∈ p.editsFor file) :
    union.IsUnion parts := by
  refine ⟨fun file => ?_, hedits, h.increasing_editsFor⟩
  rw [h.contains_iff]
  constructor
  · rintro ⟨edit, hedit⟩
    obtain ⟨p, hp, hmem⟩ := (hedits file edit).1 hedit
    exact ⟨p, hp, (hparts p hp).contains_iff.2 ⟨edit, hmem⟩⟩
  · rintro ⟨p, hp, hfile⟩
    obtain ⟨edit, hmem⟩ := (hparts p hp).contains_iff.1 hfile
    exact ⟨edit, (hedits file edit).2 ⟨p, hp, hmem⟩⟩

end EditSet

/-- Some catalog of the target has the key. -/
def Engine.Knows (e : Engine) (key : String) : Prop := CatalogSet.Knows e.catalogs.snapshot key

theorem Engine.contains_keys_iff {e : Engine} {key : String} :
    e.keys.contains key ↔ e.Knows key :=
  CatalogSet.contains_keys_iff

namespace Service

variable {s : Service} {old new key : String}

/-! ### What the targets know together -/

theorem mem_codeSites {site : CallSite} :
    site ∈ s.codeSites key ↔ ∃ e ∈ s.engines, site ∈ e.codeSites key := by
  rw [codeSites, List.mem_eraseDups, List.mem_flatMap]

theorem mem_catalogLocations {l : Location} :
    l ∈ s.catalogLocations key ↔ ∃ e ∈ s.engines, l ∈ e.catalogLocations key := by
  rw [catalogLocations, distinctLocations, mem_dropRepeats, Engine.sortLocations,
    List.mem_mergeSort, List.mem_flatMap]

theorem contains_keys_iff :
    s.keys.contains key ↔ ∃ e ∈ s.engines, e.Knows key := by
  rw [Dict.contains_iff, keys, TextSet.mem_keys_ofTexts, List.mem_flatMap]
  simp only [← Engine.contains_keys_iff, Dict.contains_iff]

/-- **What a rename asks for in all targets** is what it asks for in one of them. -/
theorem demanded_iff {file : String} {edit : TextEdit} :
    Rename.Demanded old new (s.codeSites old) (s.catalogLocations old) file edit ↔
      ∃ e ∈ s.engines,
        Rename.Demanded old new (e.codeSites old) (e.catalogLocations old) file edit := by
  simp only [Rename.Demanded, mem_codeSites, mem_catalogLocations]
  constructor
  · rintro (⟨site, ⟨e, he, hsite⟩, hdemand⟩ | ⟨l, ⟨e, he, hl⟩, hdemand⟩)
    · exact ⟨e, he, .inl ⟨site, hsite, hdemand⟩⟩
    · exact ⟨e, he, .inr ⟨l, hl, hdemand⟩⟩
  · rintro ⟨e, he, ⟨site, hsite, hdemand⟩ | ⟨l, hl, hdemand⟩⟩
    · exact .inl ⟨site, ⟨e, he, hsite⟩, hdemand⟩
    · exact .inr ⟨l, ⟨e, he, hl⟩, hdemand⟩

/-! ### The plans of the targets -/

/-- **A free key can be planned in every target**, and the plan of the service unites the plans. -/
theorem exists_plans (hnew : new ≠ "") (hne : new ≠ old)
    (hfree : ∀ e ∈ s.engines, ¬ e.Knows new) :
    ∃ plans union, s.engines.mapM (fun e => e.planRename old new) = .ok plans ∧
      s.planRename old new = .ok union ∧ union.IsUnion plans := by
  have hplan : ∀ e ∈ s.engines, ∃ plan, e.planRename old new = .ok plan ∧ plan.Proper ∧
      ∀ file edit, edit ∈ plan.editsFor file ↔
        Rename.Demanded old new (e.codeSites old) (e.catalogLocations old) file edit := by
    intro e he
    refine exists_planRename_proper _ _ hnew hne ?_
    rw [Engine.contains_keys_iff]
    exact hfree e he
  obtain ⟨plans, hplans⟩ := exists_mapM_eq_ok fun e he => (hplan e he).imp fun _ h => h.1
  have hunknown : ¬ s.keys.contains new := by
    rw [contains_keys_iff]
    rintro ⟨e, he, hknows⟩
    exact hfree e he hknows
  obtain ⟨union, hunion, hproper, hmem⟩ :=
    exists_planRename_proper (s.codeSites old) (s.catalogLocations old) hnew hne hunknown
  -- the plans are those of the targets, in both directions
  have hbeside := mapM_eq_ok_iff.1 hplans
  have hpart : ∀ p ∈ plans, ∃ e ∈ s.engines, p.Proper ∧ ∀ file edit, edit ∈ p.editsFor file ↔
      Rename.Demanded old new (e.codeSites old) (e.catalogLocations old) file edit := by
    intro p hp
    obtain ⟨e, he, heq⟩ := exists_of_mem_forall₂ hbeside hp
    obtain ⟨plan, hok, hplanned⟩ := hplan e he
    obtain rfl := Except.ok.inj (hok.symm.trans heq)
    exact ⟨e, he, hplanned⟩
  refine ⟨plans, union, hplans, hunion, hproper.isUnion (fun p hp => ?_) fun file edit => ?_⟩
  · obtain ⟨_, _, hp, _⟩ := hpart p hp
    exact hp
  · rw [hmem, demanded_iff]
    constructor
    · rintro ⟨e, he, hdemand⟩
      obtain ⟨plan, hok, -, hplanned⟩ := hplan e he
      obtain ⟨p, hp, heq⟩ := exists_of_mem_forall₂ hbeside.flip he
      obtain rfl := Except.ok.inj (hok.symm.trans heq)
      exact ⟨plan, hp, (hplanned file edit).2 hdemand⟩
    · rintro ⟨p, hp, hedit⟩
      obtain ⟨e, he, -, hplanned⟩ := hpart p hp
      exact ⟨e, he, (hplanned file edit).1 hedit⟩

/-- **A rename over all targets is the union of the renames of each target.** It is refused for an
empty key, idle for the old key itself, and refused for a key that some target knows, whether or not
that target asks for the old key. Otherwise it can be planned in each target, and its plan has
exactly the edits of these plans, each of them once. The order of the targets does not matter. -/
theorem planRename_union (s : Service) (old new : String) :
    (s.planRename old new = .error .emptyName ↔ new = "") ∧
    (new ≠ "" → new = old → s.planRename old new = .ok .empty) ∧
    (new ≠ "" → new ≠ old →
      (s.planRename old new = .error (.conflict old new) ↔
        ∃ e ∈ s.engines, e.Knows new) ∧
      ((∀ e ∈ s.engines, ¬ e.Knows new) → ∃ plans union,
        s.engines.mapM (fun e => e.planRename old new) = .ok plans ∧
        s.planRename old new = .ok union ∧ union.IsUnion plans)) ∧
    ∀ engines : List Engine, engines.Perm s.engines →
      ({ s with engines := engines } : Service).planRename old new = s.planRename old new := by
  refine ⟨planRename_eq_emptyName_iff, fun hnew heq => ?_, fun hnew hne => ⟨?_, ?_⟩,
    fun engines hperm => ?_⟩
  · subst heq
    exact planRename_self hnew
  · exact (planRename_eq_conflict_iff hnew hne).trans contains_keys_iff
  · exact exists_plans hnew hne
  · refine planRename_congr (fun site => ?_) (fun l => ?_) ?_
    · rw [mem_codeSites, mem_codeSites]
      simp only [hperm.mem_iff]
    · rw [mem_catalogLocations, mem_catalogLocations]
      simp only [hperm.mem_iff]
    · rw [contains_keys_iff, contains_keys_iff]
      simp only [hperm.mem_iff]

end Service

end Concord
