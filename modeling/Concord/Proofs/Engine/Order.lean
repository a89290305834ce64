import Concord.Proofs.Consistency.Exact
import Concord.Proofs.Engine.Publishing
import Concord.Proofs.Findings

/-!
# What an engine reports about a file, and in which order

An engine reports about a file what parsing has found in it and what catalogs and code disagree
about there, each finding as often as it was found. Only the disagreements are merged in, and only
where there are some is the list of the file sorted. So the list is in order if and only if there is
a disagreement about the file or parsing has found things in order by itself
(`Engine.accounts_findingsOf`). This is so for whatever an engine reports and for all that it has
ever published (`Engine.diagnostics_accounts`).
-/

namespace Concord

namespace Consistency

variable {catalogs : CatalogSet} {sites : CallSites} {file : String}

theorem about_disagreements (catalogs : CatalogSet) (sites : CallSites) (file : String) :
    ((disagreements catalogs sites).about file : Multiset Diagnostic) =
      expected catalogs sites file := by
  rw [← findingsAt_found, Findings.about, get?_disagreements]
  split
  · next h => rw [h, Option.getD_none]
  · rw [Option.getD_some]
    exact Multiset.coe_eq_coe.2 (List.mergeSort_perm _ _)

theorem contains_disagreements_iff :
    (disagreements catalogs sites).contains file ↔ expected catalogs sites file ≠ 0 := by
  rw [← findingsAt_found, Ne, Multiset.coe_eq_zero, Dict.contains, get?_disagreements]
  split
  · next h => simp [h]
  · next h => simp [h]

end Consistency

namespace Engine

open Consistency

/-! ### One report -/

/-- What parsing has found in the catalog that is known for a file. -/
def parsedAt (catalogs : CatalogSet) (file : String) : List Diagnostic :=
  match catalogs.get? file with
  | some c => c.diagnostics
  | none => []

theorem about_parseFindings (catalogs : CatalogSet) (file : String) :
    (parseFindings catalogs).about file = parsedAt catalogs file := by
  let reporting : String × Catalog → Bool := fun c => !c.2.diagnostics.isEmpty
  have hfold : parseFindings catalogs = (catalogs.entries.filter reporting).foldl
      (fun f c => f.upsert c.1 fun _ => c.2.diagnostics) Dict.empty := by
    rw [parseFindings, List.foldl_filter]
    refine congrArg (fun step => catalogs.entries.foldl step Dict.empty) ?_
    funext f c
    cases hc : c.2.diagnostics <;> simp [reporting, hc, Dict.insert]
  have hget := Dict.get?_foldl_upsert Prod.fst
    (fun (c : String × Catalog) (_ : Option (List Diagnostic)) => c.2.diagnostics)
    (catalogs.entries.filter reporting) Dict.empty file
  have hfilter : (catalogs.entries.filter reporting).filter (fun c => c.1 = file) =
      (((catalogs.get? file).map (Prod.mk file)).toList).filter reporting := by
    rw [← Dict.filter_entries, List.filter_filter, List.filter_filter]
    exact List.filter_congr fun _ _ => Bool.and_comm _ _
  rw [hfilter, ← hfold] at hget
  rw [Findings.about, hget, parsedAt]
  cases catalogs.get? file with
  | none => rfl
  | some c => cases hc : c.diagnostics <;> simp [reporting, hc]

/-- Whether findings account for some catalogs and code: about each file they say what parsing has
found and what is expected of a disagreement, in order as far as the latter goes. -/
structure Accounts (catalogs : CatalogSet) (sites : CallSites) (f : Findings) : Prop where
  complete (file : String) : (f.about file : Multiset Diagnostic) =
    (parsedAt catalogs file : Multiset Diagnostic) + expected catalogs sites file
  ordered_iff (file : String) : Ordered (f.about file) ↔
    expected catalogs sites file ≠ 0 ∨ Ordered (parsedAt catalogs file)

/-- **What is reported about a file, and when it is in order.** -/
theorem accounts_findingsOf (catalogs : CatalogSet) (sites : CallSites) :
    Accounts catalogs sites (findingsOf catalogs sites) := by
  refine ⟨fun file => ?_, fun file => ?_⟩
  · rw [← about_disagreements, ← about_parseFindings, Multiset.coe_add]
    exact Multiset.coe_eq_coe.2 (Findings.about_merge _ _ file)
  · rw [← contains_disagreements_iff]
    by_cases hfile : (disagreements catalogs sites).contains file
    · exact iff_of_true (Findings.orderedBy_merge (.inr hfile)) (.inl hfile)
    · have hkept : (findingsOf catalogs sites).about file = parsedAt catalogs file := by
        have hnone : (disagreements catalogs sites).get? file = none := by
          simpa [Dict.contains] using hfile
        rw [findingsOf, Findings.about, Findings.get?_merge, hnone, ← about_parseFindings]
        rfl
      rw [hkept, or_iff_right hfile]

/-! ### All reports -/

/-- An engine whose reports, those published before included, are reports of engines that hold
nothing but their own files. -/
structure Faithful (e : Engine) : Prop where
  routed : e.Routed
  publisher (p : Publisher) : e.publisher = some p → p.runner.AtRest
  published (f : Findings) : f ∈ e.published → ∃ e' : Engine, e'.Routed ∧ f = e'.diagnostics

variable {e e' : Engine}

/-- What leaves the publisher alone. -/
theorem Faithful.of_publisher_eq (h : e.Faithful) (hrouted : e'.Routed)
    (hpublisher : e'.publisher = e.publisher) (hpublished : e'.published = e.published) :
    e'.Faithful :=
  ⟨hrouted, fun p hp => h.publisher p (hpublisher ▸ hp),
    fun f hf => h.published f (hpublished ▸ hf)⟩

theorem Faithful.of_samePress (h : e.Faithful) (hrouted : e'.Routed) (hsame : SamePress e e') :
    e'.Faithful :=
  h.of_publisher_eq hrouted hsame.publisher hsame.published

theorem Faithful.tickPublisher (h : e.Faithful) (now : Nat) : (e.tickPublisher now).Faithful := by
  cases hp : e.publisher with
  | none =>
    have hsame : e.tickPublisher now = e := by rw [Engine.tickPublisher, hp]
    rwa [hsame]
  | some p =>
    have hrest := h.publisher p hp
    obtain ⟨hafter, hstate⟩ :=
      Schedule.Runner.tick_of_instant (Publisher.instant_worker e.diagnostics) hrest now e.published
    refine ⟨h.routed.tickPublisher now, fun p' hp' => ?_, fun f hf => ?_⟩
    · rw [Engine.tickPublisher, hp] at hp'
      exact Option.some_inj.1 hp' ▸ hafter
    · rw [Engine.tickPublisher, hp] at hf
      rcases hstate with ⟨hstate, -⟩ | ⟨hstate, -⟩
      · exact h.published f (hstate ▸ hf)
      · -- what is published now is what the engine reports now
        have hgiven : f ∈ e.published ++ p.runner.scheduler.taken.map fun _ => e.diagnostics := by
          rw [← Publisher.feed_worker, ← hstate]
          exact hf
        rcases List.mem_append.1 hgiven with hf | hf
        · exact h.published f hf
        · obtain ⟨-, -, rfl⟩ := List.mem_map.1 hf
          exact ⟨e, h.routed, rfl⟩

theorem Faithful.forward (h : e.Faithful) : e.forward.Faithful := by
  refine ⟨h.routed.forward, fun p' hp' => ?_, h.published⟩
  obtain ⟨p, hp, -⟩ := Option.map_eq_some_iff.1 hp'
  obtain ⟨p'', -, hp'', hrest, -⟩ := presses_forward e p hp (h.publisher p hp)
  exact Option.some_inj.1 (hp''.symm.trans hp') ▸ hrest

section Moves

variable {ω : Type} [Workspace ω] (w : ω) (now : Nat) (h : e.Faithful)
include h

theorem Faithful.tick : (e.tick w now).Faithful := by
  have hpublisher := h.tickPublisher now
  have hcatalogs := hpublisher.routed.tickCatalogs w now
  exact (hpublisher.of_publisher_eq (hcatalogs.tickSources w now) rfl rfl).forward

theorem Faithful.flushCatalogs : (e.flushCatalogs w now).Faithful := by
  rw [Engine.flushCatalogs]
  split
  · have hpublisher := h.tickPublisher now
    have hdrained := hpublisher.routed.drainCatalogs w now
    exact (hpublisher.of_publisher_eq (hdrained.tickSources w now) rfl rfl).forward
  · exact h

theorem Faithful.flushSources : (e.flushSources w now).Faithful := by
  rw [Engine.flushSources]
  split
  · have hpublisher := h.tickPublisher now
    have hcatalogs := hpublisher.routed.tickCatalogs w now
    exact (hpublisher.of_publisher_eq (hcatalogs.drainSources w now) rfl rfl).forward
  · exact h

theorem Faithful.flush : (e.flush w now).Faithful :=
  (h.flushCatalogs w now).flushSources w now

end Moves

/-- **All that an engine has ever published is what an engine with its own files reports.** -/
theorem Reachable.faithful (he : Reachable e) : e.Faithful := by
  induction he with
  | new t reader interval =>
    exact ⟨routed_new t reader interval, fun _ hp => absurd hp nofun,
      fun _ hf => absurd hf List.not_mem_nil⟩
  | event r _ ih => exact ih.of_samePress (ih.routed.handleEvent r) (samePress_handleEvent _ r)
  | scan _ hscan ih =>
    exact ih.of_samePress (ih.routed.initialScan _ hscan) (samePress_initialScan _ hscan)
  | flush w now _ ih => exact ih.flush w now
  | tick w now _ ih => exact ih.tick w now
  | apply w edits _ ih =>
    exact ih.of_samePress (ih.routed.apply w edits) (samePress_apply w _ edits)
  | rename w old new _ ih =>
    exact ih.of_samePress (ih.routed.rename w old new) (samePress_rename w _ old new)
  | start _ ih => exact ih.of_publisher_eq ih.routed.start rfl rfl
  | dispose _ ih => exact ih.of_publisher_eq ih.routed.dispose rfl rfl
  | publish interval _ ih =>
    refine ⟨ih.routed.of_sameCaches ⟨rfl, rfl, rfl, rfl⟩, fun p hp => ?_, ih.published⟩
    exact Option.some_inj.1 hp ▸ atRest_newPublisher interval _
  | stopPublishing _ ih =>
    exact ⟨ih.routed.of_sameCaches ⟨rfl, rfl, rfl, rfl⟩, fun _ hp => absurd hp nofun, ih.published⟩

/-- **What an engine reports**, now and whenever it has published: about each file it is what
parsing has found and what catalogs and code disagree about, each finding as often, and it is in
order if and only if there is a disagreement or parsing has found things in order. -/
theorem diagnostics_accounts (he : e.Reachable) :
    Accounts e.catalogs.snapshot e.sources.snapshot e.diagnostics ∧
    ∀ f ∈ e.published, ∃ e' : Engine, e'.Routed ∧ f = e'.diagnostics ∧
      Accounts e'.catalogs.snapshot e'.sources.snapshot f := by
  refine ⟨accounts_findingsOf _ _, fun f hf => ?_⟩
  obtain ⟨e', hrouted, rfl⟩ := he.faithful.published f hf
  exact ⟨e', hrouted, rfl, accounts_findingsOf _ _⟩

/-- An engine that reads one catalog, is told to publish and does so. -/
def publishing (text : String) : Engine :=
  let w := MemoryWorkspace.empty
  let e := (new ⟨[], [], .po, ["/p"], ".po", [], none⟩ .standard 500).publish 100
  ((e.handleEvent ⟨"/p/en.po", .created, some text⟩).2.flush w 0).tick w 200

theorem reachable_publishing (text : String) : (publishing text).Reachable :=
  .tick _ _ (.flush _ _ (.event _ (.publish _ (.new _ _ _))))

/-- An entry that no code uses, and a line that is not understood. -/
def unusedText : String := "msgid \"a\"\nmsgstr \"1\"\nfoo\n"

/-- The disagreement puts this report in order. -/
theorem diagnostics_accounts_sample :
    (publishing unusedText).Reachable ∧ (publishing unusedText).published ≠ [] ∧
      Ordered ((publishing unusedText).diagnostics.about "/p/en.po") := by
  have he := reachable_publishing unusedText
  refine ⟨he, by decide +kernel, ((diagnostics_accounts he).1.ordered_iff "/p/en.po").2 (.inl ?_)⟩
  rw [← contains_disagreements_iff]
  decide +kernel

/-- An entry without a value, in it a line that is not understood. -/
def unvaluedText : String := "msgid \"a\"\nfoo\n"

/-- **Not all reports are in order**: the entry is reported where it is closed, after the line. -/
theorem diagnostics_not_ordered :
    (publishing unvaluedText).Reachable ∧
      (publishing unvaluedText).published = [(publishing unvaluedText).diagnostics] ∧
      ¬Ordered ((publishing unvaluedText).diagnostics.about "/p/en.po") := by
  refine ⟨reachable_publishing unvaluedText, by decide +kernel, ?_⟩
  rw [Ordered]
  decide +kernel

end Engine

end Concord
