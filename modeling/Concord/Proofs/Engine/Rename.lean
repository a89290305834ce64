import Concord.Proofs.Catalog.RenameEntry
import Concord.Proofs.Edit.InMemory
import Concord.Proofs.Engine.Incremental
import Concord.Proofs.Engine.Reachable

/-!
# When a rename leaves nothing of the old key

A rename edits one place per catalog file: the one that the catalog remembers for the old key, which
is that of the last entry that stores it. So the old key is gone after the next flush exactly when
each catalog file that defines it does so once, and nothing that was pending meanwhile brings it
into another file (`Engine.rename_erases_iff`). With two entries for one key the earlier one comes
to light again (`Engine.rename_leaves_earlier`).
-/

namespace Concord

/-! ### Keys of catalogs -/

namespace Catalog

/-- The entry of a key in a catalog, in the first language that has one. -/
def entryFor? (c : Catalog) (key : String) : Option CatalogEntry :=
  c.languages.values.findSome? fun entries => entries.get? key

theorem entryFor?_eq_none_iff {c : Catalog} {key : String} :
    c.entryFor? key = none ↔ ∀ l ∈ c.languages.values, l.get? key = none :=
  List.findSome?_eq_none_iff

theorem values_languages_parse (file text : String) :
    (parse file text).languages.values = [entriesOf file text] := by
  rw [languages_parse]
  rfl

theorem entryFor?_parse (file text key : String) :
    (parse file text).entryFor? key = (entriesOf file text).get? key := by
  rw [entryFor?, values_languages_parse, List.findSome?_singleton]

theorem mem_keys_items {c : Catalog} {key : String} :
    key ∈ c.items.map CatalogItem.key ↔ c.entryFor? key ≠ none := by
  rw [ne_eq, entryFor?_eq_none_iff]
  simp only [Dict.get?_eq_none_iff, Dict.values, items, List.mem_map, List.mem_flatMap,
    forall_exists_index, and_imp, forall_apply_eq_imp_iff₂, not_forall, not_not]
  constructor
  · rintro ⟨i, ⟨l, hl, e, he, rfl⟩, rfl⟩
    exact ⟨l, hl, e, he, rfl⟩
  · rintro ⟨l, hl, e, he, rfl⟩
    exact ⟨_, ⟨l, hl, e, he, rfl⟩, rfl⟩

end Catalog

namespace Engine

/-- The entry of a key in the catalog that was read from a file. -/
def entryIn? (e : Engine) (file key : String) : Option CatalogEntry :=
  (e.catalogs.get? file).bind fun c => c.entryFor? key

theorem entryIn?_ne_none_iff {e : Engine} {file key : String} :
    e.entryIn? file key ≠ none ↔ ∃ c, e.catalogs.get? file = some c ∧ c.entryFor? key ≠ none := by
  rw [entryIn?]
  cases e.catalogs.get? file <;> simp

/-- **A key is known when the catalog of some file has an entry for it.** -/
theorem mem_keys_iff {e : Engine} {key : String} :
    key ∈ e.keys.keys ↔ ∃ file, e.entryIn? file key ≠ none := by
  rw [keys, CatalogSet.keys, TextSet.mem_keys_ofTexts, CatalogSet.items, List.map_flatMap,
    List.mem_flatMap]
  simp only [Catalog.mem_keys_items, Cache.mem_values_snapshot_iff, entryIn?_ne_none_iff]
  constructor
  · rintro ⟨c, ⟨file, hc⟩, hentry⟩
    exact ⟨file, c, hc, hentry⟩
  · rintro ⟨file, c, hc, hentry⟩
    exact ⟨c, ⟨file, hc⟩, hentry⟩

/-- **A key has a location when it is known.** -/
theorem catalogLocations_eq_nil_iff {e : Engine} {key : String} :
    e.catalogLocations key = [] ↔ key ∉ e.keys.keys := by
  have hnil : ∀ c : Catalog, (c.languages.values.filterMap fun entries =>
      (entries.get? key).map CatalogEntry.location) = [] ↔ c.entryFor? key = none := by
    intro c
    rw [List.filterMap_eq_nil_iff, Catalog.entryFor?_eq_none_iff]
    simp only [Option.map_eq_none_iff]
  rw [catalogLocations, sortLocations, ← List.length_eq_zero_iff, List.length_mergeSort,
    List.length_eq_zero_iff, List.flatMap_eq_nil_iff, mem_keys_iff]
  simp only [hnil, Cache.mem_values_snapshot_iff, entryIn?_ne_none_iff, not_exists, not_and,
    not_not, forall_exists_index]
  exact ⟨fun h file c hc => h c file hc, fun h c file hc => h file c hc⟩

/-! ### What a rename edits -/

/-- Every catalog is what its file says now. -/
def InSync (e : Engine) (files : Dict String) : Prop :=
  ∀ file c, e.catalogs.get? file = some c →
    ∃ text, files.get? file = some text ∧ c = Catalog.parse file text

/-- Of lists that belong to the keys of a dictionary, the elements that belong to one key. -/
theorem filter_flatMap_entries {β γ : Type*} {l : List (String × β)} (hl : KeysIncrease l)
    (g : β → List γ) (place : γ → String) (hg : ∀ p ∈ l, ∀ x ∈ g p.2, place x = p.1)
    (file : String) : ((l.map Prod.snd).flatMap g).filter (fun x => place x = file) =
      ((lookupEntry file l).map g).getD [] := by
  induction l with
  | nil => rfl
  | cons p l ih =>
    obtain ⟨hhead, htail⟩ := List.pairwise_cons.1 hl
    have hrest := ih htail fun q hq => hg q (List.mem_cons_of_mem _ hq)
    have hp := hg p List.mem_cons_self
    obtain ⟨a, b⟩ := p
    rw [List.map_cons, List.flatMap_cons, List.filter_append, hrest, lookupEntry]
    split
    · next hfile =>
      subst hfile
      rw [lookupEntry_eq_none fun q hq => (ne_of_lt (hhead q hq)).symm,
        List.filter_eq_self.2 fun x hx => decide_eq_true (hp x hx)]
      simp
    · next hfile =>
      have hnone : (g b).filter (fun x => place x = file) = [] := by
        rw [List.filter_eq_nil_iff]
        exact fun x hx hx' => hfile ((hp x hx).symm.trans (of_decide_eq_true hx'))
      rw [hnone, List.nil_append]

/-- A catalog in sync gives a key one location, in its own file. -/
theorem locations_parse (file text key : String) :
    ((Catalog.parse file text).languages.values.filterMap fun entries =>
      (entries.get? key).map CatalogEntry.location) =
      (((Catalog.parse file text).entryFor? key).map CatalogEntry.location).toList := by
  rw [Catalog.entryFor?_parse, Catalog.values_languages_parse]
  cases h : (Catalog.entriesOf file text).get? key <;> simp [h]

/-- **A rename is given one location for each file that defines the key.** -/
theorem filter_catalogLocations {e : Engine} {files : Dict String} (hsync : e.InSync files)
    (key file : String) :
    ((e.catalogLocations key).filter fun l => l.file = file) =
      ((e.entryIn? file key).map CatalogEntry.location).toList := by
  have hplace : ∀ p ∈ e.catalogs.snapshot.entries, ∀ l ∈
      (p.2.languages.values.filterMap fun entries => (entries.get? key).map CatalogEntry.location),
      l.file = p.1 := by
    rintro ⟨f, c⟩ hp l hl
    obtain ⟨text, -, rfl⟩ := hsync f c (Dict.get?_eq_some_iff.2 hp)
    rw [locations_parse, Catalog.entryFor?_parse, Option.mem_toList] at hl
    obtain ⟨entry, hentry, rfl⟩ := Option.map_eq_some_iff.1 hl
    exact Catalog.file_of_get?_entriesOf hentry
  have hfilter := filter_flatMap_entries e.catalogs.snapshot.sorted
    (fun c : Catalog => c.languages.values.filterMap fun entries =>
      (entries.get? key).map CatalogEntry.location) Location.file hplace file
  -- the locations are sorted, but of one file there is at most one
  have hperm := (List.mergeSort_perm (e.catalogs.snapshot.values.flatMap fun c =>
    c.languages.values.filterMap fun entries => (entries.get? key).map CatalogEntry.location)
    fun a b => (compare a b).isLE).filter fun l => l.file = file
  have hlookup : lookupEntry file e.catalogs.snapshot.entries = e.catalogs.get? file := rfl
  rw [hlookup] at hfilter
  rw [catalogLocations, sortLocations, entryIn?]
  have hvalues : e.catalogs.snapshot.values = e.catalogs.snapshot.entries.map Prod.snd := rfl
  rw [hvalues] at hperm ⊢
  rw [hfilter] at hperm
  cases hc : e.catalogs.get? file with
  | none =>
    rw [hc] at hperm
    exact hperm.eq_nil
  | some c =>
    obtain ⟨text, -, rfl⟩ := hsync file c hc
    rw [hc] at hperm
    simp only [Option.map_some, Option.getD_some, locations_parse] at hperm
    rw [Option.bind_some]
    cases hentry : (Catalog.parse file text).entryFor? key with
    | none =>
      rw [hentry] at hperm
      exact hperm.eq_nil
    | some entry =>
      rw [hentry] at hperm
      exact List.perm_singleton.1 hperm

/-- The new key of a rename that can be planned is free in every file. -/
theorem entryIn?_eq_none_of_planRename {e : Engine} {old new : String} (hne : new ≠ old)
    {edits : EditSet} (h : e.planRename old new = .ok edits) (file : String) :
    e.entryIn? file new = none := by
  obtain ⟨-, hfree, -⟩ := planRename_ok hne h
  have hunknown : new ∉ e.keys.keys := by
    rw [Dict.mem_keys_iff]
    rintro ⟨v, hv⟩
    rw [Dict.contains, hv] at hfree
    simp at hfree
  rw [mem_keys_iff, not_exists] at hunknown
  exact not_not.1 (hunknown file)

/-- **What a rename edits in a catalog file**: the place of the entry that is known for the key. -/
theorem get?_edits_planRename {e : Engine} {files : Dict String} (he : e.Routed)
    (hsync : e.InSync files) {old new : String} (hne : new ≠ old) {edits : EditSet}
    (h : e.planRename old new = .ok edits) {file : String} (hfile : e.target.isCatalogFile file) :
    edits.byFile.get? file = (e.entryIn? file old).map fun entry =>
      [⟨entry.location.range, Rename.catalogText new⟩] := by
  have hsites : ∀ s ∈ e.codeSites old, s.location.file ≠ file := by
    intro s hs
    obtain ⟨-, sites, hsites, -⟩ := he.mem_codeSites_iff.1 hs
    obtain ⟨hbelongs, -⟩ := he.sources.held _ _ hsites
    rintro rfl
    simp [Target.isSourceFile, hfile] at hbelongs
  rw [get?_planRename hne h hsites, filter_catalogLocations hsync]
  cases e.entryIn? file old <;> rfl

/-! ### What a flush shows after a rename -/

/-- What a rename that is made does: the edited files are asked for anew. -/
theorem rename_ok {e e' : Engine} {w w' : MemoryWorkspace} {old new : String} {edits : EditSet}
    (h : e.rename w old new = (.ok edits, w', e')) :
    e.planRename old new = .ok edits ∧ w.Edited w' edits ∧
      e' = e.hear (edits.files.map fun f => ⟨f.1, .changed, none⟩) := by
  rw [rename] at h
  split at h
  · simp at h
  · next edits' hplan =>
    rw [apply] at h
    by_cases hempty : edits'.isEmpty
    · rw [if_pos hempty] at h
      obtain ⟨rfl, rfl, rfl⟩ : edits' = edits ∧ w = w' ∧ e = e' := by simpa using h
      have hfiles : edits'.byFile.entries = [] := List.isEmpty_iff.1 hempty
      have hnone : ∀ file, edits'.byFile.get? file = none := by
        intro file
        rw [Dict.get?, hfiles]
        rfl
      refine ⟨hplan, ⟨fun file es hes => ?_, fun _ _ => rfl, rfl, rfl⟩, ?_⟩
      · rw [hnone] at hes
        simp at hes
      · rw [EditSet.files, hfiles]
        rfl
    · rw [if_neg hempty] at h
      cases happly : Workspace.applyEdits w edits' with
      | mk result w₁ =>
        rw [happly] at h
        cases result with
        | error error => simp at h
        | ok u =>
          obtain ⟨rfl, rfl, rfl⟩ : edits' = edits ∧ w₁ = w' ∧ e.refresh edits' = e' := by
            simpa using h
          exact ⟨hplan, MemoryWorkspace.Edited.of_applyEdits happly, refresh_eq_hear e edits'⟩

/-- The files of an edited workspace can be listed and read like those before. -/
theorem exists_ofFiles_of_edited {files : Dict String} {w' : MemoryWorkspace} {edits : EditSet}
    (h : (MemoryWorkspace.ofFiles files).Edited w' edits) :
    ∃ files', w' = MemoryWorkspace.ofFiles files' := by
  obtain ⟨files', dirs, closed⟩ := w'
  obtain rfl : dirs = [] := h.closedDirs
  obtain rfl : closed = [] := h.closedFiles
  exact ⟨files', rfl⟩

variable {e : Engine} {files files' : Dict String} {edits : EditSet}

/-- What a flush shows of a file after some events: what the last of them brings that reaches the
catalogs, or what would have been shown without them. -/
theorem get?_flush_hear (he : e.Routed) (w : MemoryWorkspace) (now : Nat)
    (rs : List RebuildRequest) (file : String) :
    ((e.hear rs).flush w now).catalogs.get? file =
      ((RebuildRequest.lastFor file
          (e.catalogs.accepted (rs.filter fun r => e.target.isCatalogFile r.file))).map
        (catalogOrigin w).outcome).getD ((e.catalogs.drained (catalogOrigin w)).get? file) := by
  have hflush := ((he.hear rs).atRest.flush_catalogs w now).2.2.1
  rw [Cache.snapshot, catalogs_hear, Cache.drained_requestAll, Contents.rebuildAll_append] at hflush
  rw [Cache.get?, hflush, Contents.get?_rebuildAll]
  rfl

/-- **What is read of a file that edits leave alone** is what would be read without them. -/
theorem get?_flush_hear_of_none (he : e.Routed)
    (hedited : (MemoryWorkspace.ofFiles files).Edited (MemoryWorkspace.ofFiles files') edits)
    (now : Nat) {file : String} (hnone : edits.byFile.get? file = none) :
    (((e.hear (edits.files.map fun f => ⟨f.1, .changed, none⟩)).flush
        (MemoryWorkspace.ofFiles files') now).catalogs.get? file) =
      (e.flush (MemoryWorkspace.ofFiles files) now).catalogs.get? file := by
  have hbefore := (he.atRest.flush_catalogs (MemoryWorkspace.ofFiles files) now).2.2.1
  rw [Cache.snapshot] at hbefore
  rw [get?_flush_hear he, RebuildRequest.lastFor_eq_none_iff.2]
  · rw [Option.map_none, Option.getD_none, Cache.get?, hbefore]
    refine Contents.get?_rebuildAll_congr (fun r _ hr => ?_) fun _ => rfl
    have hsame : files.get? r.file = files'.get? r.file := by
      rw [hr]
      exact (hedited.unchanged file hnone).symm
    exact Cache.outcome_ofFiles_congr hsame
  · -- the events are about edited files only
    intro r hr hfile
    rw [Cache.accepted] at hr
    split at hr
    · exact absurd hr List.not_mem_nil
    · obtain ⟨⟨f, es⟩, hf, rfl⟩ := List.mem_map.1 (List.mem_filter.1 hr).1
      obtain rfl : f = file := hfile
      rw [Dict.get?_eq_some_iff.2 hf] at hnone
      simp at hnone

/-- **What is read of an edited catalog file** is its new text, unless the cache was disposed. -/
theorem get?_flush_hear_of_some (he : e.Routed) (hlive : e.catalogs.disposed = false) (now : Nat)
    {file : String} (hfile : e.target.isCatalogFile file) {es : List TextEdit}
    (hes : edits.byFile.get? file = some es) {text : String}
    (htext : files'.get? file = some text) :
    (((e.hear (edits.files.map fun f => ⟨f.1, .changed, none⟩)).flush
        (MemoryWorkspace.ofFiles files') now).catalogs.get? file) =
      some (Catalog.parse file text) := by
  have hrequest : (⟨file, .changed, none⟩ : RebuildRequest) ∈
      (edits.files.map fun f => ⟨f.1, .changed, none⟩).filter fun r =>
        e.target.isCatalogFile r.file :=
    List.mem_filter.2 ⟨List.mem_map.2 ⟨(file, es), Dict.get?_eq_some_iff.1 hes, rfl⟩, hfile⟩
  rw [get?_flush_hear he, Cache.accepted, hlive, if_neg Bool.false_ne_true]
  cases hlast : RebuildRequest.lastFor file
      ((edits.files.map fun f => ⟨f.1, .changed, none⟩).filter fun r =>
        e.target.isCatalogFile r.file) with
  | none => exact absurd rfl (RebuildRequest.lastFor_eq_none_iff.1 hlast _ hrequest)
  | some r =>
    -- whichever event it is, it carries no text
    obtain ⟨hr, hrfile⟩ := RebuildRequest.file_of_lastFor hlast
    obtain ⟨⟨f, es'⟩, -, rfl⟩ := List.mem_map.1 (List.mem_filter.1 hr).1
    obtain rfl : f = file := hrfile
    rw [Option.map_some, Option.getD_some, Origin.outcome]
    simp only [catalogOrigin, Workspace.readText, MemoryWorkspace.readText_ofFiles, htext]
    rfl

/-- An engine knows no entries of files that are no catalogs. -/
theorem entryIn?_eq_none (he : e.Routed) {file : String} (hfile : ¬ e.target.isCatalogFile file)
    (key : String) : e.entryIn? file key = none := by
  rw [entryIn?]
  cases hc : e.catalogs.get? file with
  | none => rfl
  | some c => exact absurd (he.catalogs.held file c hc).1 hfile

section Renamed

variable {e' : Engine} {w' : MemoryWorkspace} {old new : String} (he : e.Routed)
  (hsync : e.InSync files) (hne : old ≠ new)
  (hrename : e.rename (MemoryWorkspace.ofFiles files) old new = (.ok edits, w', e')) (now : Nat)
include he hrename

/-- After a flush each cache still holds only its own files. -/
theorem routed_flush_rename : (e'.flush w' now).Routed ∧
    (e'.flush w' now).target = e.target := by
  obtain ⟨-, -, rfl⟩ := rename_ok hrename
  exact ⟨(he.hear _).flush w' now, by rw [target_flush, target_hear]⟩

/-- After a disposal a rename shows nothing new. -/
theorem get?_flush_rename_of_disposed (hdisposed : e.catalogs.disposed) (file : String) :
    (e'.flush w' now).catalogs.get? file = e.catalogs.get? file := by
  obtain ⟨-, -, rfl⟩ := rename_ok hrename
  have hrest := he.hear (edits.files.map fun f => ⟨f.1, .changed, none⟩)
  have hpending :
      (e.hear (edits.files.map fun f => ⟨f.1, .changed, none⟩)).catalogs.pending = [] := by
    refine hrest.catalogs.atRest.pending_eq_nil ?_
    rw [catalogs_hear, Cache.disposed_requestAll]
    exact hdisposed
  have hsnapshot := (hrest.atRest.flush_catalogs w' now).2.2.1
  rw [Cache.drained_of_pending _ hpending, catalogs_hear] at hsnapshot
  rw [Cache.get?]
  rw [Cache.snapshot, Cache.snapshot, Cache.contents_requestAll] at hsnapshot
  rw [hsnapshot]
  rfl

include hsync hne

/-- **In a file that did not define the old key** the next flush shows what it would show without
the rename. -/
theorem entryIn?_flush_rename_of_none {file : String} (hnone : e.entryIn? file old = none)
    (key : String) :
    (e'.flush w' now).entryIn? file key =
      (e.flush (MemoryWorkspace.ofFiles files) now).entryIn? file key := by
  obtain ⟨hrouted, htarget⟩ := routed_flush_rename he hrename now
  by_cases hfile : e.target.isCatalogFile file
  · obtain ⟨hplan, hedited, rfl⟩ := rename_ok hrename
    have hedits := get?_edits_planRename he hsync hne.symm hplan hfile
    rw [hnone] at hedits
    obtain ⟨files', rfl⟩ := exists_ofFiles_of_edited hedited
    rw [entryIn?, entryIn?, get?_flush_hear_of_none he hedited now hedits]
  · rw [entryIn?_eq_none hrouted (by rwa [htarget]), entryIn?_eq_none (he.flush _ now)]
    rwa [target_flush]

/-- **In a file that defined the old key** the new key has its value after the next flush, and the
old one is gone exactly when it was stored once. -/
theorem entryIn?_flush_rename_of_some (hlive : e.catalogs.disposed = false) {file : String}
    {entry : CatalogEntry} (hold : e.entryIn? file old = some entry) :
    ∃ text, files.get? file = some text ∧
      ((e'.flush w' now).entryIn? file new).map CatalogEntry.value = some entry.value ∧
      ((e'.flush w' now).entryIn? file old = none ↔ (Catalog.storedKeys text).count old = 1) := by
  obtain ⟨hplan, hedited, rfl⟩ := rename_ok hrename
  obtain ⟨hempty, -, -⟩ := planRename_ok hne.symm hplan
  obtain ⟨c, hc, hentry⟩ := Option.bind_eq_some_iff.1 hold
  obtain ⟨hfile, -⟩ := he.catalogs.held file c hc
  obtain ⟨text, htext, rfl⟩ := hsync file c hc
  rw [Catalog.entryFor?_parse] at hentry
  have hfree := entryIn?_eq_none_of_planRename hne.symm hplan file
  rw [entryIn?, hc, Option.bind_some, Catalog.entryFor?_parse] at hfree
  obtain ⟨edited, hedit, -, hvalue, hgone, -, -⟩ := Catalog.parse_rename_last hentry hempty hfree
  -- what was written to the file is the edited text
  have hedits := get?_edits_planRename he hsync hne.symm hplan hfile
  rw [hold, Option.map_some] at hedits
  obtain ⟨text₁, text', htext₁, hnew, htext'⟩ := hedited.edited file _ hedits
  obtain rfl : text = text₁ := by
    rw [show (MemoryWorkspace.ofFiles files).files.get? file = some text from htext] at htext₁
    exact Option.some_inj.1 htext₁
  obtain rfl : String.ofList edited = text' := by
    rw [Workspace.editText, hedit] at hnew
    exact Except.ok.inj hnew
  obtain ⟨files', rfl⟩ := exists_ofFiles_of_edited hedited
  have hafter := get?_flush_hear_of_some he hlive now hfile hedits
    (show files'.get? file = some (String.ofList edited) from htext')
  refine ⟨text, htext, ?_, ?_⟩
  · rw [entryIn?, hafter, Option.bind_some, Catalog.entryFor?_parse, hvalue]
  · rw [entryIn?, hafter, Option.bind_some, Catalog.entryFor?_parse, hgone]

end Renamed

/-- When a rename at a time leaves nothing of the old key. -/
structure RenameErases (e : Engine) (files : Dict String) (old : String) (now : Nat) : Prop where
  /-- The catalogs are still read, or the key was not known. -/
  live : e.catalogs.disposed → old ∉ e.keys.keys
  /-- A file that defines the key stores it in one entry only. -/
  once (file text : String) : e.entryIn? file old ≠ none → files.get? file = some text →
    (Catalog.storedKeys text).count old = 1
  /-- A flush would find the key in no file that it is not known from. -/
  known (file : String) : (e.flush (MemoryWorkspace.ofFiles files) now).entryIn? file old ≠ none →
    e.entryIn? file old ≠ none

/-- Where no catalogs are pending and they were not disposed of, all that counts is how often each
file stores the key. -/
theorem renameErases_iff_of_pending {e : Engine} (he : e.Routed) {files : Dict String}
    {old : String} {now : Nat} (hpending : e.catalogs.pending = [])
    (hlive : e.catalogs.disposed = false) :
    e.RenameErases files old now ↔ ∀ file text, e.entryIn? file old ≠ none →
      files.get? file = some text → (Catalog.storedKeys text).count old = 1 := by
  have hflush := (he.atRest.flush_catalogs (MemoryWorkspace.ofFiles files) now).2.2.1
  rw [Cache.drained_of_pending _ hpending, Cache.snapshot, Cache.snapshot] at hflush
  refine ⟨fun h => h.once, fun h => ⟨fun hd => ?_, h, fun file hold => ?_⟩⟩
  · rw [hlive] at hd
    exact absurd hd Bool.false_ne_true
  · rw [entryIn?, Cache.get?, hflush] at hold
    exact hold

/-- **When a rename leaves nothing of the old key.** Whatever an engine did before, if its catalogs
are in sync with the files and a rename succeeds, then after the next flush the old key is unknown,
has no location, and the new key has its value in each file that defined it – exactly when the old
key is stored once in each file that defines it, is not brought in by what is pending, and the
catalogs were not disposed of while they had it. -/
theorem rename_erases_iff {e e' : Engine} {files : Dict String} {w' : MemoryWorkspace}
    {old new : String} {edits : EditSet} (he : e.Reachable) (hsync : e.InSync files)
    (hne : old ≠ new)
    (hrename : e.rename (MemoryWorkspace.ofFiles files) old new = (.ok edits, w', e')) (now : Nat) :
    (old ∉ (e'.flush w' now).keys.keys ∧ (e'.flush w' now).catalogLocations old = [] ∧
      ∀ file entry, e.entryIn? file old = some entry →
        ((e'.flush w' now).entryIn? file new).map CatalogEntry.value = some entry.value) ↔
      e.RenameErases files old now := by
  have hrouted := he.routed
  constructor
  · rintro ⟨hunknown, -, -⟩
    rw [mem_keys_iff, not_exists] at hunknown
    have hlive : e.catalogs.disposed → old ∉ e.keys.keys := by
      rw [mem_keys_iff, not_exists]
      intro hdisposed file
      have h := hunknown file
      rwa [entryIn?, get?_flush_rename_of_disposed hrouted hrename now hdisposed] at h
    refine ⟨hlive, fun file text hold htext => ?_, fun file hold hnone => ?_⟩
    · -- a file that stores the key in two entries would still define it
      obtain ⟨entry, hentry⟩ := Option.ne_none_iff_exists'.1 hold
      have hdisposed : e.catalogs.disposed = false := by
        rw [Bool.eq_false_iff]
        exact fun hd => hlive hd (mem_keys_iff.2 ⟨file, hold⟩)
      obtain ⟨text', htext', -, hgone⟩ :=
        entryIn?_flush_rename_of_some hrouted hsync hne hrename now hdisposed hentry
      obtain rfl : text' = text := Option.some_inj.1 (htext'.symm.trans htext)
      exact hgone.1 (not_not.1 (hunknown file))
    · rw [← entryIn?_flush_rename_of_none hrouted hsync hne hrename now hnone] at hold
      exact hunknown file hold
  · rintro ⟨hlive, honce, hknown⟩
    have hunknown : old ∉ (e'.flush w' now).keys.keys := by
      rw [mem_keys_iff, not_exists]
      intro file
      rw [not_not]
      cases hd : e.catalogs.disposed with
      | true =>
        have h := hlive hd
        rw [mem_keys_iff, not_exists] at h
        rw [entryIn?, get?_flush_rename_of_disposed hrouted hrename now hd]
        exact not_not.1 (h file)
      | false =>
        cases hold : e.entryIn? file old with
        | none =>
          rw [entryIn?_flush_rename_of_none hrouted hsync hne hrename now hold]
          by_contra h
          exact hknown file h hold
        | some entry =>
          obtain ⟨text, htext, -, hgone⟩ :=
            entryIn?_flush_rename_of_some hrouted hsync hne hrename now hd hold
          exact hgone.2 (honce file text (by rw [hold]; simp) htext)
    refine ⟨hunknown, catalogLocations_eq_nil_iff.2 hunknown, fun file entry hold => ?_⟩
    have hdisposed : e.catalogs.disposed = false := by
      rw [Bool.eq_false_iff]
      exact fun hd => hlive hd (mem_keys_iff.2 ⟨file, by rw [hold]; simp⟩)
    obtain ⟨-, -, hvalue, -⟩ :=
      entryIn?_flush_rename_of_some hrouted hsync hne hrename now hdisposed hold
    exact hvalue

/-- An engine of the sample target that was told of its English catalog and has read it. -/
def readEngine (files : Dict String) : Engine :=
  ((new sampleTarget .standard 500).handleEvent ⟨"/p/locales/en.po", .created, none⟩).2.flush
    (MemoryWorkspace.ofFiles files) 0

theorem reachable_readEngine (files : Dict String) : (readEngine files).Reachable :=
  .flush _ _ (.event _ (.new _ _ _))

theorem inSync_of_snapshot {e : Engine} {files : Dict String} (file text : String)
    (h : e.catalogs.snapshot.entries = [(file, Catalog.parse file text)])
    (hfiles : files.get? file = some text) : e.InSync files := by
  intro q c hc
  have hmem : (q, c) ∈ e.catalogs.snapshot.entries := Dict.get?_eq_some_iff.1 hc
  rw [h, List.mem_singleton, Prod.mk.injEq] at hmem
  obtain ⟨rfl, rfl⟩ := hmem
  exact ⟨text, hfiles, rfl⟩

/-- A catalog that stores its key once: the rename leaves nothing of it. -/
theorem rename_erases_sample :
    (readEngine sampleFiles).Reachable ∧ (readEngine sampleFiles).InSync sampleFiles ∧ "a" ≠ "b" ∧
    ∃ edits w' e', (readEngine sampleFiles).rename (MemoryWorkspace.ofFiles sampleFiles) "a" "b" =
        (.ok edits, w', e') ∧
      (readEngine sampleFiles).RenameErases sampleFiles "a" 1 ∧
      "a" ∉ (e'.flush w' 1).keys.keys ∧ (e'.flush w' 1).catalogLocations "a" = [] ∧
      ∀ file entry, (readEngine sampleFiles).entryIn? file "a" = some entry →
        ((e'.flush w' 1).entryIn? file "b").map CatalogEntry.value = some entry.value := by
  have hreachable := reachable_readEngine sampleFiles
  have hsync : (readEngine sampleFiles).InSync sampleFiles :=
    inSync_of_snapshot "/p/locales/en.po" "msgid \"a\"\nmsgstr \"A\"\n"
      (by decide +kernel) (by decide +kernel)
  have hok : ∃ edits, ((readEngine sampleFiles).rename (MemoryWorkspace.ofFiles sampleFiles)
      "a" "b").1 = .ok edits :=
    ⟨.push .empty "/p/locales/en.po" ⟨⟨0, 6⟩, ⟨0, 9⟩⟩ "\"b\"", by decide +kernel⟩
  obtain ⟨edits, hedits⟩ := hok
  have hrename : (readEngine sampleFiles).rename (MemoryWorkspace.ofFiles sampleFiles) "a" "b" =
      (.ok edits, _, _) := Prod.ext hedits rfl
  have hcondition : (readEngine sampleFiles).RenameErases sampleFiles "a" 1 := by
    rw [renameErases_iff_of_pending hreachable.routed (by decide +kernel) (by decide +kernel)]
    intro file text hold htext
    have hmem : (file, text) ∈ sampleFiles.entries := Dict.get?_eq_some_iff.1 htext
    rw [show sampleFiles.entries =
      [("/p/locales/en.po", "msgid \"a\"\nmsgstr \"A\"\n")] by decide] at hmem
    rw [List.mem_singleton, Prod.mk.injEq] at hmem
    obtain ⟨rfl, rfl⟩ := hmem
    decide +kernel
  exact ⟨hreachable, hsync, by decide, edits, _, _, hrename, hcondition,
    (rename_erases_iff hreachable hsync (by decide) hrename 1).2 hcondition⟩

/-- A catalog that stores a key in two entries. -/
def doubledFiles : Dict String :=
  Dict.empty.insert "/p/locales/en.po" "msgid \"a\"\nmsgstr \"1\"\n\nmsgid \"a\"\nmsgstr \"2\"\n"

/-- **Of a key that is stored twice the earlier entry comes to light again**: only the later one is
renamed, although the catalogs are in sync, nothing is pending and the rename succeeds. -/
theorem rename_leaves_earlier :
    (readEngine doubledFiles).Reachable ∧ (readEngine doubledFiles).InSync doubledFiles ∧
    (readEngine doubledFiles).isIdle ∧
    ∃ edits w' e', (readEngine doubledFiles).rename (MemoryWorkspace.ofFiles doubledFiles) "a" "b" =
        (.ok edits, w', e') ∧
      "a" ∈ (e'.flush w' 1).keys.keys ∧
      (e'.flush w' 1).catalogLocations "a" = [⟨"/p/locales/en.po", ⟨⟨0, 6⟩, ⟨0, 9⟩⟩⟩] := by
  have hok : ∃ edits, ((readEngine doubledFiles).rename (MemoryWorkspace.ofFiles doubledFiles)
      "a" "b").1 = .ok edits :=
    ⟨.push .empty "/p/locales/en.po" ⟨⟨3, 6⟩, ⟨3, 9⟩⟩ "\"b\"", by decide +kernel⟩
  obtain ⟨edits, hedits⟩ := hok
  exact ⟨reachable_readEngine doubledFiles,
    inSync_of_snapshot "/p/locales/en.po"
      "msgid \"a\"\nmsgstr \"1\"\n\nmsgid \"a\"\nmsgstr \"2\"\n"
      (by decide +kernel) (by decide +kernel),
    by decide +kernel, edits, _, _, Prod.ext hedits rfl, by decide +kernel, by decide +kernel⟩

end Engine

end Concord
