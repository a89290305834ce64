import Concord.Proofs.Findings
import Concord.Service

/-!
# What all targets report together

Findings are merged target by target, so as soon as one target reports on a file, what is collected
about it is in order. Then only neighbours can be equal, and what the service shows of the file is
the union of what the targets and the settings found, in strictly increasing order, whatever the
order of the targets (`Service.diagnostics_union`). The settings alone are not sorted.
-/

namespace Concord

namespace Service

/-- All findings before repetitions are dropped. -/
def collected (s : Service) : Findings :=
  (s.engines.map Engine.diagnostics).foldl Findings.merge s.settings

theorem get?_diagnostics (s : Service) (file : String) :
    s.diagnostics.get? file = (s.collected.get? file).map (dropRepeats id) := by
  rw [diagnostics, Dict.get?_mapValues, collected, List.foldl_map]

theorem get?_diagnostics_of_none {s : Service} {file : String}
    (h : ∀ e ∈ s.engines, ¬ e.diagnostics.contains file) :
    s.diagnostics.get? file = (s.settings.get? file).map (dropRepeats id) := by
  rw [get?_diagnostics, collected, Findings.get?_foldl_merge_of_none]
  intro g hg
  obtain ⟨e, he, rfl⟩ := List.mem_map.1 hg
  exact h e he

/-- What is shown of a file that a target reports on. -/
theorem exists_get?_diagnostics {s : Service} {file : String}
    (h : ∃ e ∈ s.engines, e.diagnostics.contains file) :
    ∃ ds, s.diagnostics.get? file = some ds ∧ IncreasingBy id ds ∧
      ∀ d, d ∈ ds ↔ d ∈ s.settings.about file ∨
        ∃ e ∈ s.engines, d ∈ e.diagnostics.about file := by
  have hreported : ∃ g ∈ s.engines.map Engine.diagnostics, g.contains file := by
    obtain ⟨e, he, hfile⟩ := h
    exact ⟨_, List.mem_map_of_mem he, hfile⟩
  obtain ⟨ds, hds⟩ := Option.isSome_iff_exists.1
    (Findings.contains_foldl_merge hreported s.settings)
  have hordered := Findings.orderedBy_foldl_merge (f := s.settings) (.inr hreported)
  have hall := Findings.about_foldl_merge (s.engines.map Engine.diagnostics) s.settings file
  rw [Findings.about_of_get? hds] at hordered hall
  refine ⟨dropRepeats id ds, ?_, increasingBy_dropRepeats hordered, fun d => ?_⟩
  · rw [get?_diagnostics, collected, hds, Option.map_some]
  · rw [mem_dropRepeats, hall.mem_iff, List.mem_append, List.flatMap_map, List.mem_flatMap]

/-- **All targets report together what each of them reports.** Of a file that a target reports on,
the service shows what some target or the settings found about it, in strictly increasing order and
so each finding once; of other files it shows what the settings say. The order of the targets does
not matter. -/
theorem diagnostics_union (s : Service) :
    (∀ file, (∃ e ∈ s.engines, e.diagnostics.contains file) →
      ∃ ds, s.diagnostics.get? file = some ds ∧ IncreasingBy id ds ∧
        ∀ d, d ∈ ds ↔ d ∈ s.settings.about file ∨
          ∃ e ∈ s.engines, d ∈ e.diagnostics.about file) ∧
    (∀ file, (∀ e ∈ s.engines, ¬ e.diagnostics.contains file) →
      s.diagnostics.get? file = (s.settings.get? file).map (dropRepeats id)) ∧
    ∀ engines : List Engine, engines.Perm s.engines →
      ({ s with engines := engines } : Service).diagnostics = s.diagnostics := by
  refine ⟨fun file h => exists_get?_diagnostics h, fun file h => get?_diagnostics_of_none h,
    fun engines hperm => Dict.ext_get? fun file => ?_⟩
  by_cases h : ∃ e ∈ s.engines, e.diagnostics.contains file
  · -- both lists increase strictly and hold the same findings
    have h' : ∃ e ∈ engines, e.diagnostics.contains file := by
      obtain ⟨e, he, hfile⟩ := h
      exact ⟨e, hperm.mem_iff.2 he, hfile⟩
    obtain ⟨ds, hds, hincreasing, hmem⟩ := exists_get?_diagnostics h
    obtain ⟨ds', hds', hincreasing', hmem'⟩ :=
      exists_get?_diagnostics (s := { s with engines := engines }) h'
    rw [hds, hds']
    refine congrArg some (eq_of_increasing hincreasing' hincreasing fun d => ?_)
    rw [hmem, hmem']
    simp only [hperm.mem_iff]
  · have hnone : ∀ e ∈ s.engines, ¬ e.diagnostics.contains file :=
      fun e he hfile => h ⟨e, he, hfile⟩
    have hnone' : ∀ e ∈ engines, ¬ e.diagnostics.contains file :=
      fun e he => hnone e (hperm.mem_iff.1 he)
    rw [get?_diagnostics_of_none hnone,
      get?_diagnostics_of_none (s := { s with engines := engines }) hnone']

end Service

end Concord
