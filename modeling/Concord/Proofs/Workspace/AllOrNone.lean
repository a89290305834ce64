import Concord.Proofs.Edit.InMemory
import Concord.Proofs.Engine.Incremental
import Concord.Proofs.Workspace.Disk
import Concord.Service

/-!
# Edits are made together or not at all

Edits of a workspace are made if all of them can be, and otherwise the workspace stays as it is
(`AllOrNone`). For files on disk this is the work of `Disk.applyEdits_cases`; files in memory have
all their new texts worked out before any of them is put. Engines ask for edited files to be read
anew after the edits were made, so that an engine whose edits fail is as before, with all that it
was asked for so far, and so is a service whose rename fails.
-/

namespace Concord

/-- Edits are made if that is possible, and otherwise the workspace stays as it is. -/
structure AllOrNone {ω : Type} [Workspace ω] (w : ω) (edits : EditSet) (possible : Prop)
    (made : ω → Prop) : Prop where
  succeeds_iff : (∃ w', Workspace.applyEdits w edits = (.ok (), w')) ↔ possible
  made (w' : ω) : Workspace.applyEdits w edits = (.ok (), w') → made w'
  unchanged (error : WorkspaceError) (w' : ω) :
    Workspace.applyEdits w edits = (.error error, w') → w' = w

theorem AllOrNone.of_cases {ω : Type} [Workspace ω] {w : ω} {edits : EditSet} {possible : Prop}
    {made : ω → Prop}
    (h : (possible ∧ ∃ w', Workspace.applyEdits w edits = (.ok (), w') ∧ made w') ∨
      (¬ possible ∧ ∃ error, Workspace.applyEdits w edits = (.error error, w))) :
    AllOrNone w edits possible made := by
  rcases h with ⟨hpossible, w', hok, hmade⟩ | ⟨hnot, error, herror⟩
  · refine ⟨⟨fun _ => hpossible, fun _ => ⟨w', hok⟩⟩, fun w'' h => ?_, fun error w'' h => ?_⟩
    · obtain rfl : w' = w'' := congrArg Prod.snd (hok.symm.trans h)
      exact hmade
    · simp [hok] at h
  · refine ⟨⟨fun ⟨w', h⟩ => ?_, fun h => absurd h hnot⟩, fun w'' h => ?_, fun error' w'' h => ?_⟩
    · simp [herror] at h
    · simp [herror] at h
    · exact (congrArg Prod.snd (herror.symm.trans h)).symm

/-! ### Files in memory -/

namespace MemoryWorkspace

variable {w : MemoryWorkspace} {edits : EditSet}

/-- Edits that can be made: each edited file is there and its edits fit it. -/
def Editable (w : MemoryWorkspace) (edits : EditSet) : Prop :=
  ∀ e ∈ edits.files, ∃ text text', w.files.get? e.1 = some text ∧
    Workspace.editText e.1 text e.2 = .ok text'

theorem applyEdits_cases (w : MemoryWorkspace) (edits : EditSet) :
    (w.Editable edits ∧ ∃ w', w.applyEdits edits = (.ok (), w') ∧ Edited w w' edits) ∨
      (¬ w.Editable edits ∧ ∃ error, w.applyEdits edits = (.error error, w)) := by
  cases hplan : edits.files.mapM w.edited with
  | error error =>
    refine .inr ⟨fun heditable => ?_, error, by simp [applyEdits, hplan]⟩
    have hplans : ∀ e ∈ edits.files, ∃ t, w.edited e = .ok t := by
      intro e he
      obtain ⟨text, text', htext, hedited⟩ := heditable e he
      exact ⟨(e.1, text'), edited_eq_ok_iff.2 ⟨text, htext, hedited, rfl⟩⟩
    obtain ⟨texts, htexts⟩ := exists_mapM_eq_ok hplans
    rw [hplan] at htexts
    simp at htexts
  | ok texts =>
    have hmade : w.applyEdits edits =
        (.ok (), texts.foldl (fun w t => w.put t.1 t.2) w) := by simp [applyEdits, hplan]
    refine .inl ⟨fun e he => ?_, _, hmade, .of_applyEdits hmade⟩
    obtain ⟨t, -, ht⟩ := exists_of_mem_forall₂ (mapM_eq_ok_iff.1 hplan).flip he
    obtain ⟨text, htext, hedited, -⟩ := edited_eq_ok_iff.1 ht
    exact ⟨text, t.2, htext, hedited⟩

end MemoryWorkspace

/-! ### Engines and services -/

section Failing

variable {ω : Type} [Workspace ω] {w w' : ω}

/-- **An engine whose edits fail is as before**, and what fails are the edits of the files. -/
theorem Engine.apply_error {e e' : Engine} {edits : EditSet} {error : WorkspaceError}
    (h : e.apply w edits = (.error error, w', e')) :
    e' = e ∧ Workspace.applyEdits w edits = (.error error, w') := by
  rw [Engine.apply] at h
  split at h
  · simp at h
  · split at h
    · simp at h
    · next hfailed =>
      obtain ⟨rfl, rfl, rfl⟩ : _ ∧ _ ∧ _ := by simpa using h
      exact ⟨rfl, hfailed⟩

/-- **A service whose rename fails is as before.** Either the rename cannot be planned, and the
files are as before, or the edits of the files fail. -/
theorem Service.rename_error {s s' : Service} {old new : String} {failure : RenameFailure}
    (h : s.rename w old new = (.error failure, w', s')) :
    s' = s ∧ ((∃ error, failure = .refused error ∧ s.planRename old new = .error error ∧ w' = w) ∨
      ∃ edits error, failure = .failed error ∧ s.planRename old new = .ok edits ∧
        Workspace.applyEdits w edits = (.error error, w')) := by
  rw [Service.rename] at h
  split at h
  · next error hplan =>
    obtain ⟨rfl, rfl, rfl⟩ : _ ∧ _ ∧ _ := by simpa using h
    exact ⟨rfl, .inl ⟨error, rfl, hplan, rfl⟩⟩
  · next edits hplan =>
    split at h
    · simp at h
    · split at h
      · simp at h
      · next error _ hfailed =>
        obtain ⟨rfl, rfl, rfl⟩ : _ ∧ _ ∧ _ := by simpa using h
        exact ⟨rfl, .inr ⟨edits, error, rfl, hplan, hfailed⟩⟩

end Failing

/-- **All edits are made or none.** On disk, where edited files are different files and no temporary
sibling is a file, and in memory: edits that are made give each edited file its edited text and
change nothing else, edits that fail change nothing, and they fail only if some edited file is no
text, its edits do not fit it, or on disk its temporary sibling has no vacant place. An engine whose
edits fail and a service whose rename fails are as before, too. -/
theorem applyEdits_allOrNone :
    (∀ (d : Disk) (edits : EditSet), d.Tidy edits →
      AllOrNone d edits (d.Editable edits) fun d' => d.Edited d' edits) ∧
    (∀ (w : MemoryWorkspace) (edits : EditSet),
      AllOrNone w edits (w.Editable edits) fun w' => w.Edited w' edits) ∧
    (∀ (ω : Type) [Workspace ω] (w w' : ω) (e e' : Engine) (edits : EditSet)
      (error : WorkspaceError), e.apply w edits = (.error error, w', e') →
        e' = e ∧ Workspace.applyEdits w edits = (.error error, w')) ∧
    ∀ (ω : Type) [Workspace ω] (w w' : ω) (s s' : Service) (old new : String)
      (failure : RenameFailure), s.rename w old new = (.error failure, w', s') →
        s' = s ∧
        ((∃ error, failure = .refused error ∧ s.planRename old new = .error error ∧ w' = w) ∨
          ∃ edits error, failure = .failed error ∧ s.planRename old new = .ok edits ∧
            Workspace.applyEdits w edits = (.error error, w')) := by
  refine ⟨fun d edits htidy => ?_, fun w edits => ?_, fun ω _ w w' e e' edits error h => ?_,
    fun ω _ w w' s s' old new failure h => ?_⟩
  · exact .of_cases (Disk.applyEdits_cases htidy)
  · exact .of_cases (MemoryWorkspace.applyEdits_cases w edits)
  · exact Engine.apply_error h
  · exact Service.rename_error h

/-- Two catalogs, and a directory where the temporary sibling of the second one goes. -/
def sampleDisk : Disk where
  tree := ((FileTree.empty.putWithDirs ["l", "de.po"] (.text "msgid \"a\"\n")).put
    ["l", "en.po"] (.text "msgid \"a\"\nmsgstr \"A\"\n")).put
    ["l", "en.po.locsync-tmp"] .directory
  ignores := ⟨[], []⟩

theorem tidy_sampleDisk {edits : EditSet}
    (h : ∀ file ∈ edits.byFile.keys, file = "/l/de.po" ∨ file = "/l/en.po") :
    sampleDisk.Tidy edits := by
  have hde : sampleDisk.tree.resolve "/l/de.po" = .ok ["l", "de.po"] := by
    decide +kernel
  have hen : sampleDisk.tree.resolve "/l/en.po" = .ok ["l", "en.po"] := by
    decide +kernel
  have hdeSibling : sampleDisk.tree.resolve (Disk.temporaryPath "/l/de.po") =
      .ok ["l", "de.po.locsync-tmp"] := by decide +kernel
  have henSibling : sampleDisk.tree.resolve (Disk.temporaryPath "/l/en.po") =
      .ok ["l", "en.po.locsync-tmp"] := by decide +kernel
  refine ⟨(List.pairwise_map.2 edits.byFile.sorted).imp_of_mem fun {a b} ha hb hab p q hp hq => ?_,
    fun file hfile q hq => ?_⟩
  · rcases h a ha with rfl | rfl <;> rcases h b hb with rfl | rfl
    · exact absurd hab (String.lt_irrefl _)
    · obtain rfl := Except.ok.inj (hde.symm.trans hp)
      obtain rfl := Except.ok.inj (hen.symm.trans hq)
      decide +kernel
    · obtain rfl := Except.ok.inj (hen.symm.trans hp)
      obtain rfl := Except.ok.inj (hde.symm.trans hq)
      decide +kernel
    · exact absurd hab (String.lt_irrefl _)
  · rcases h file hfile with rfl | rfl
    · obtain rfl := Except.ok.inj (hdeSibling.symm.trans hq)
      decide +kernel
    · obtain rfl := Except.ok.inj (henSibling.symm.trans hq)
      decide +kernel

/-- Another key in both catalogs. -/
def sampleEdits : EditSet :=
  (EditSet.empty.push "/l/de.po" ⟨⟨0, 6⟩, ⟨0, 9⟩⟩ "\"b\"").push
    "/l/en.po" ⟨⟨0, 6⟩, ⟨0, 9⟩⟩ "\"b\""

/-- An engine that has read the second catalog and is to read the first one. -/
def sampleEngine : Engine :=
  ((((Engine.new { Engine.sampleTarget with catalogDirs := ["/l"] } .standard 500).handleEvent
    ⟨"/l/en.po", .created, none⟩).2.flush sampleDisk 0).handleEvent
      ⟨"/l/de.po", .changed, none⟩).2

/-- Both catalogs in memory. -/
def sampleMemory : MemoryWorkspace :=
  (MemoryWorkspace.empty.put "/l/de.po" "msgid \"a\"\n").put "/l/en.po"
    "msgid \"a\"\nmsgstr \"A\"\n"

/-- The edits of the sample disk fail at its second catalog, when the first one was replaced. An
engine that makes them fails and so does a rename, and all is as before. In memory the edits are
made. -/
theorem applyEdits_allOrNone_sample :
    sampleDisk.Tidy sampleEdits ∧ ¬ sampleDisk.Editable sampleEdits ∧
    (∃ error, sampleDisk.applyEdits sampleEdits = (.error error, sampleDisk)) ∧
    (∃ error, sampleEngine.apply sampleDisk sampleEdits =
      (.error error, sampleDisk, sampleEngine)) ∧
    (∃ error, (Service.mk [sampleEngine] .empty).rename sampleDisk "a" "b" =
      (.error (.failed error), sampleDisk, ⟨[sampleEngine], .empty⟩)) ∧
    ∃ w', sampleMemory.applyEdits sampleEdits = (.ok (), w') ∧
      sampleMemory.Edited w' sampleEdits := by
  obtain ⟨hdisk, hmemory, hengine, hservice⟩ := applyEdits_allOrNone
  have htidy : sampleDisk.Tidy sampleEdits := tidy_sampleDisk (by decide +kernel)
  have hfails : (sampleDisk.applyEdits sampleEdits).1 =
      .error (.unwritable "/l/en.po.locsync-tmp" .isDirectory) := by decide +kernel
  obtain ⟨hpossible, -, hunchanged⟩ := hdisk sampleDisk sampleEdits htidy
  refine ⟨htidy, fun h => ?_, ⟨_, Prod.ext hfails (hunchanged _ _ (Prod.ext hfails rfl))⟩, ?_, ?_,
    ?_⟩
  · obtain ⟨d', hok⟩ := hpossible.2 h
    have hboth := hfails.symm.trans (congrArg Prod.fst hok)
    simp at hboth
  · have happly : (sampleEngine.apply sampleDisk sampleEdits).1 =
        .error (.unwritable "/l/en.po.locsync-tmp" .isDirectory) := by decide +kernel
    obtain ⟨hsame, hfailed⟩ := hengine Disk _ _ _ _ _ _ (Prod.ext happly rfl)
    exact ⟨_, Prod.ext happly (Prod.ext (hunchanged _ _ hfailed) hsame)⟩
  · have hrename : ((Service.mk [sampleEngine] .empty).rename sampleDisk "a" "b").1 =
        .error (.failed (.unwritable "/l/en.po.locsync-tmp" .isDirectory)) := by
      decide +kernel
    -- the engine knows of the second catalog alone
    have hkeys : (((Service.mk [sampleEngine] .empty).planRename "a" "b").toOption.map
        fun edits => edits.byFile.keys) = some ["/l/en.po"] := by decide +kernel
    obtain ⟨hsame, ⟨error, hrefused, -⟩ | ⟨edits, error, -, hplan, hfailed⟩⟩ :=
      hservice Disk _ _ _ _ _ _ _ (Prod.ext hrename rfl)
    · simp at hrefused
    · rw [hplan] at hkeys
      have hfiles : edits.byFile.keys = ["/l/en.po"] := Option.some.inj hkeys
      have htidy' : sampleDisk.Tidy edits := tidy_sampleDisk (by simp [hfiles])
      exact ⟨_, Prod.ext hrename (Prod.ext ((hdisk _ _ htidy').unchanged _ _ hfailed) hsame)⟩
  · have hok : (sampleMemory.applyEdits sampleEdits).1 = .ok () := by decide +kernel
    exact ⟨_, Prod.ext hok rfl, (hmemory _ _).made _ (Prod.ext hok rfl)⟩

end Concord
