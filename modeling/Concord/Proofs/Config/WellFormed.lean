import Concord.Config.Settings
import Concord.Proofs.Catalog.QuotedLine
import Concord.Proofs.Paths
import Mathlib.Data.List.Count
import Mathlib.Data.List.Nodup

/-!
# Well-formed settings

Each target of the settings stands for a target of the configuration that lacks no part, in the
order in which they are written. It has what it has once, only directories that exist and only
names of functions that are trimmed (`Target.WellFormed`), and nothing that is written is lost in
between (`TargetConfig.StandsFor`). Its catalog extension begins with a dot unless it is written
with a dot that is not its first character (`TargetConfig.HasOnlyInnerDots`): then it is taken as
it is written.

What is wrong is reported once for each time it is written (`TargetConfig.reports`), and nothing
else is reported (`Config.settings_wellFormed`).
-/

namespace Concord

universe u v

/-! ### Lists -/

section Lists

variable {α : Type u} {β : Type v} [DecidableEq α] [DecidableEq β]

theorem nodup_eraseDups : (l : List α) → l.eraseDups.Nodup
  | [] => List.nodup_nil
  | a :: rest => by
    rw [List.eraseDups_cons, List.nodup_cons]
    refine ⟨?_, nodup_eraseDups (rest.filter fun b => !b == a)⟩
    simp [List.mem_eraseDups]
termination_by l => l.length
decreasing_by exact Nat.lt_succ_of_le (List.length_filter_le _ _)

/-- What a filter keeps occurs as often under an injective map as before. -/
theorem count_map_filter {f : α → β} (hf : Function.Injective f) (p : α → Bool) (l : List α)
    (a : α) : ((l.filter p).map f).count (f a) = if p a then l.count a else 0 := by
  rw [List.count_map_of_injective _ f hf]
  split
  · next ha => exact List.count_filter ha
  · next ha => exact List.count_eq_zero.2 fun hmem => ha (List.mem_filter.1 hmem).2

theorem count_singleton_ite (a b : α) (p : Prop) [Decidable p] :
    (if p then [a] else []).count b = if p ∧ a = b then 1 else 0 := by
  by_cases hp : p <;> simp [hp, List.count_singleton]

omit [DecidableEq α] in
/-- What is no value of a map does not occur among its values. -/
theorem count_map_eq_zero {f : α → β} {b : β} (h : ∀ a, f a ≠ b) (l : List α) :
    (l.map f).count b = 0 :=
  List.count_eq_zero.2 fun hmem => by
    obtain ⟨a, -, ha⟩ := List.mem_map.1 hmem
    exact h a ha

end Lists

/-! ### Names -/

namespace CodeLanguage

theorem ofId?_eq_some_iff {name : String} {l : CodeLanguage} :
    ofId? name = some l ↔ l.id = name := by
  constructor
  · intro h
    simpa using List.find?_some h
  · rintro rfl
    cases l <;> decide

theorem ofId?_eq_none_iff {name : String} : ofId? name = none ↔ ∀ l ∈ all, l.id ≠ name := by
  simp [ofId?]

end CodeLanguage

namespace CatalogFormat

theorem mem_all (f : CatalogFormat) : f ∈ all := by cases f; decide

theorem ofId?_eq_some_iff {name : String} {f : CatalogFormat} :
    ofId? name = some f ↔ f.id = name := by
  constructor
  · intro h
    simpa using List.find?_some h
  · rintro rfl
    cases f
    decide

end CatalogFormat

/-! ### Trimmed texts -/

/-- A text that neither begins nor ends with a blank. -/
structure IsTrimmed (s : String) : Prop where
  head : ∀ c ∈ s.toList.head?, ¬Text.isBlank c
  last : ∀ c ∈ s.toList.getLast?, ¬Text.isBlank c

theorem not_isBlank_of_head?_dropWhile {cs : List Char} {c : Char}
    (h : c ∈ (cs.dropWhile Text.isBlank).head?) : ¬Text.isBlank c := by
  have hnot := List.head?_dropWhile_not Text.isBlank cs
  rw [Option.mem_def.1 h] at hnot
  simpa using hnot

theorem TargetConfig.isTrimmed_trimmed (s : String) : IsTrimmed (trimmed s) := by
  rw [trimmed]
  constructor <;> rw [String.toList_ofList] <;> intro c hc
  · obtain ⟨post, hpost, -⟩ := Text.exists_trim_append s.toList
    have hhead : c ∈ (Text.trimStart s.toList).head? := by
      rw [← hpost, List.head?_append, Option.mem_def.1 hc]
      rfl
    exact not_isBlank_of_head?_dropWhile hhead
  · rw [Text.trim, Text.trimEnd, List.getLast?_reverse] at hc
    exact not_isBlank_of_head?_dropWhile hc

/-! ### What is written -/

namespace TargetConfig

variable (isDirectory : String → Bool) (base : String) (raw : TargetConfig)

/-- A target that lacks none of the lists that have no default. -/
def IsComplete : Prop :=
  raw.codeLanguages ≠ [] ∧ raw.codeDirs ≠ [] ∧ raw.catalogDirs ≠ [] ∧ raw.functions ≠ []

instance : Decidable raw.IsComplete := inferInstanceAs (Decidable (_ ∧ _ ∧ _ ∧ _))

/-- No format is written, or one that does not exist. -/
def LacksFormat : Prop := ∀ f ∈ CatalogFormat.all, raw.catalogFormat ≠ some f.id

instance : Decidable raw.LacksFormat :=
  inferInstanceAs (Decidable (∀ f ∈ CatalogFormat.all, raw.catalogFormat ≠ some f.id))

/-- No extension is written, or a blank one. -/
def LacksExtension : Prop := ∀ e ∈ raw.catalogExtension, trimmed e = ""

instance : Decidable raw.LacksExtension :=
  inferInstanceAs (Decidable (∀ e ∈ raw.catalogExtension, trimmed e = ""))

/-- The extension that is written has a dot, but does not begin with one. -/
def HasOnlyInnerDots : Prop :=
  ∃ e ∈ raw.catalogExtension, '.' ∈ (trimmed e).toList ∧ (trimmed e).toList.head? ≠ some '.'

/-- How often a problem with a target is reported. -/
def reports : TargetProblem → Nat
  | .incomplete => if raw.IsComplete then 0 else 1
  | .unknownLanguage name =>
    if raw.IsComplete ∧ ∀ l ∈ CodeLanguage.all, l.id ≠ name then raw.codeLanguages.count name else 0
  | .noCodeDir dir =>
    if raw.IsComplete ∧ ¬isDirectory (resolveDir base dir) then raw.codeDirs.count dir else 0
  | .noCatalogDir dir =>
    if raw.IsComplete ∧ ¬isDirectory (resolveDir base dir) then raw.catalogDirs.count dir else 0
  | .noFormat => if raw.IsComplete ∧ raw.LacksFormat then 1 else 0
  | .noExtension => if raw.IsComplete ∧ raw.LacksExtension then 1 else 0

/-- What is in a target is what is written, but for names that do not exist. -/
structure StandsFor (t : Target) : Prop where
  mem_languages : ∀ l, l ∈ t.languages ↔ l.id ∈ raw.codeLanguages
  mem_codeDirs : ∀ d, d ∈ t.codeDirs ↔ isDirectory d ∧ ∃ dir ∈ raw.codeDirs, resolveDir base dir = d
  mem_catalogDirs : ∀ d, d ∈ t.catalogDirs ↔
    isDirectory d ∧ ∃ dir ∈ raw.catalogDirs, resolveDir base dir = d
  mem_functions : ∀ f, f ∈ t.functions ↔ f ≠ "" ∧ ∃ name ∈ raw.functions, trimmed name = f
  format : ∀ f : CatalogFormat, raw.catalogFormat = some f.id → t.format = f
  defaultFormat : raw.LacksFormat → t.format = .po
  extension : ∀ e ∈ raw.catalogExtension, trimmed e ≠ "" →
    t.catalogExtension = if '.' ∈ (trimmed e).toList then trimmed e else "." ++ trimmed e
  defaultExtension : raw.LacksExtension → t.catalogExtension = t.format.extension
  dot : t.catalogExtension.toList.head? = some '.' ↔ ¬raw.HasOnlyInnerDots

end TargetConfig

/-- A target that has everything once, only directories that exist and only names of functions
that can be looked for. -/
structure Target.WellFormed (isDirectory : String → Bool) (t : Target) : Prop where
  languages : t.languages.Nodup
  codeDirs : (t.codeDirs.map Path.parts).Nodup
  codeDirs_exist : ∀ d ∈ t.codeDirs, isDirectory d
  catalogDirs : (t.catalogDirs.map Path.parts).Nodup
  catalogDirs_exist : ∀ d ∈ t.catalogDirs, isDirectory d
  functions : t.functions.Nodup
  functions_trimmed : ∀ f ∈ t.functions, f ≠ "" ∧ IsTrimmed f

/-! ### Languages, directories and functions -/

namespace TargetConfig

variable {isDirectory : String → Bool} {base : String} {raw : TargetConfig}

theorem mem_languages {l : CodeLanguage} : l ∈ raw.languages ↔ l.id ∈ raw.codeLanguages := by
  rw [languages, List.mem_eraseDups, List.mem_filterMap]
  simp [CodeLanguage.ofId?_eq_some_iff]

theorem mem_existingDirs {dirs : List String} {d : String} :
    d ∈ existingDirs isDirectory base dirs ↔
      isDirectory d ∧ ∃ dir ∈ dirs, resolveDir base dir = d := by
  rw [existingDirs, List.mem_eraseDups, List.mem_filter, List.mem_map, and_comm]

/-- Directories that are told apart as texts are told apart as paths, as they are normalized. -/
theorem nodup_parts_existingDirs (dirs : List String) :
    ((existingDirs isDirectory base dirs).map Path.parts).Nodup := by
  refine (nodup_eraseDups _).map_on fun d hd d' hd' hparts => ?_
  obtain ⟨-, dir, -, rfl⟩ := mem_existingDirs.1 hd
  obtain ⟨-, dir', -, rfl⟩ := mem_existingDirs.1 hd'
  rw [resolveDir, resolveDir, Path.parts_normalize, Path.parts_normalize] at hparts
  exact Path.normalize_eq_iff.2 hparts

theorem mem_functionNames {f : String} :
    f ∈ raw.functionNames ↔ f ≠ "" ∧ ∃ name ∈ raw.functions, trimmed name = f := by
  rw [functionNames, List.mem_eraseDups, List.mem_filter, List.mem_map, and_comm]
  simp

theorem isTrimmed_of_mem_functionNames {f : String} (h : f ∈ raw.functionNames) :
    f ≠ "" ∧ IsTrimmed f := by
  obtain ⟨hne, name, -, rfl⟩ := mem_functionNames.1 h
  exact ⟨hne, isTrimmed_trimmed name⟩

/-! ### The format and the extension -/

theorem format?_eq_some_iff {f : CatalogFormat} :
    raw.format? = some f ↔ raw.catalogFormat = some f.id := by
  rw [format?, Option.bind_eq_some_iff]
  simp [CatalogFormat.ofId?_eq_some_iff]

theorem format?_eq_none_iff : raw.format? = none ↔ raw.LacksFormat := by
  constructor
  · intro h f _ hf
    rw [format?_eq_some_iff.2 hf] at h
    cases h
  · intro h
    refine Option.eq_none_iff_forall_ne_some.2 fun f hf => ?_
    exact h f (CatalogFormat.mem_all f) (format?_eq_some_iff.1 hf)

/-- An extension that is written gets a dot unless it has one. -/
theorem extension?_of_written {e : String} (he : e ∈ raw.catalogExtension)
    (hne : trimmed e ≠ "") :
    raw.extension? =
      some (if '.' ∈ (trimmed e).toList then trimmed e else "." ++ trimmed e) := by
  rw [extension?, Option.mem_def.1 he, Option.map_some]
  split
  · next h => cases h
  · next h => exact absurd (Option.some.inj h) hne
  · next h =>
    obtain rfl := Option.some.inj h
    simp

theorem extension?_eq_none_iff : raw.extension? = none ↔ raw.LacksExtension := by
  constructor
  · intro h e he
    by_contra hne
    rw [extension?_of_written he hne] at h
    cases h
  · intro h
    rw [extension?]
    cases he : raw.catalogExtension with
    | none => rfl
    | some e =>
      rw [Option.map_some, h e he]
      rfl

/-- **The extension begins with a dot** unless it is written with other dots only. -/
theorem head?_extension_iff :
    (raw.extension?.getD (raw.format?.getD .po).extension).toList.head? = some '.' ↔
      ¬raw.HasOnlyInnerDots := by
  by_cases hlacks : raw.LacksExtension
  · rw [extension?_eq_none_iff.2 hlacks, Option.getD_none]
    refine iff_of_true ?_ ?_
    · cases raw.format?.getD .po
      decide
    · rintro ⟨e, he, hdot, -⟩
      simp [hlacks e he] at hdot
  · obtain ⟨e, he, hne⟩ : ∃ e ∈ raw.catalogExtension, trimmed e ≠ "" := by
      simpa [LacksExtension] using hlacks
    have hinner : raw.HasOnlyInnerDots ↔
        '.' ∈ (trimmed e).toList ∧ (trimmed e).toList.head? ≠ some '.' := by
      simp [HasOnlyInnerDots, Option.mem_def.1 he]
    rw [extension?_of_written he hne, Option.getD_some, hinner]
    by_cases hdot : '.' ∈ (trimmed e).toList
    · simp [hdot]
    · simp [hdot, String.toList_append]

/-! ### A target and what it stands for -/

theorem wellFormed_toTarget (file : Option String) :
    (raw.toTarget isDirectory base file).WellFormed isDirectory where
  languages := nodup_eraseDups _
  codeDirs := nodup_parts_existingDirs _
  codeDirs_exist := fun _ hd => (mem_existingDirs.1 hd).1
  catalogDirs := nodup_parts_existingDirs _
  catalogDirs_exist := fun _ hd => (mem_existingDirs.1 hd).1
  functions := nodup_eraseDups _
  functions_trimmed := fun _ => isTrimmed_of_mem_functionNames

theorem standsFor_toTarget (file : Option String) :
    raw.StandsFor isDirectory base (raw.toTarget isDirectory base file) where
  mem_languages := fun _ => mem_languages
  mem_codeDirs := fun _ => mem_existingDirs
  mem_catalogDirs := fun _ => mem_existingDirs
  mem_functions := fun _ => mem_functionNames
  format := fun f hf => by
    show raw.format?.getD .po = f
    rw [format?_eq_some_iff.2 hf, Option.getD_some]
  defaultFormat := fun h => by
    show raw.format?.getD .po = .po
    rw [format?_eq_none_iff.2 h, Option.getD_none]
  extension := fun e he hne => by
    show raw.extension?.getD _ = _
    rw [extension?_of_written he hne, Option.getD_some]
  defaultExtension := fun h => by
    show raw.extension?.getD _ = _
    rw [extension?_eq_none_iff.2 h, Option.getD_none]
  dot := head?_extension_iff

/-! ### What is reported -/

theorem isIncomplete_iff : raw.isIncomplete ↔ ¬raw.IsComplete := by
  simp only [isIncomplete, IsComplete, Bool.or_eq_true, List.isEmpty_iff]
  tauto

variable (isDirectory base raw) in
/-- The problems with a target, complete or not. -/
def reported : List TargetProblem :=
  if raw.isIncomplete then [.incomplete] else raw.problems isDirectory base

/-- **Each problem with a target is reported as often as it is written.** -/
theorem count_reported (p : TargetProblem) :
    (raw.reported isDirectory base).count p = raw.reports isDirectory base p := by
  rw [reported]
  by_cases hcomplete : raw.IsComplete
  · have hnot : ¬raw.isIncomplete := fun h => isIncomplete_iff.1 h hcomplete
    rw [if_neg hnot]
    have hlanguage : ∀ name, (CodeLanguage.ofId? name).isNone ↔
        ∀ l ∈ CodeLanguage.all, l.id ≠ name := by
      intro name
      rw [Option.isNone_iff_eq_none, CodeLanguage.ofId?_eq_none_iff]
    have hformat : raw.format?.isNone ↔ raw.LacksFormat := by
      rw [Option.isNone_iff_eq_none, format?_eq_none_iff]
    have hextension : raw.extension?.isNone ↔ raw.LacksExtension := by
      rw [Option.isNone_iff_eq_none, extension?_eq_none_iff]
    simp only [problems, unknownLanguages, missingDirs, List.count_append, hformat, hextension]
    cases p with
    | incomplete =>
      simp [count_map_eq_zero, reports, hcomplete, count_singleton_ite]
    | unknownLanguage name =>
      rw [count_map_filter fun _ _ => TargetProblem.unknownLanguage.inj]
      simp [count_map_eq_zero, reports, hcomplete, hlanguage, count_singleton_ite]
    | noCodeDir dir =>
      rw [count_map_filter fun _ _ => TargetProblem.noCodeDir.inj]
      simp [count_map_eq_zero, reports, hcomplete, count_singleton_ite]
    | noCatalogDir dir =>
      rw [count_map_filter fun _ _ => TargetProblem.noCatalogDir.inj]
      simp [count_map_eq_zero, reports, hcomplete, count_singleton_ite]
    | noFormat =>
      simp [count_map_eq_zero, reports, hcomplete, count_singleton_ite]
    | noExtension =>
      simp [count_map_eq_zero, reports, hcomplete, count_singleton_ite]
  · rw [if_pos (isIncomplete_iff.2 hcomplete)]
    cases p <;> simp [reports, hcomplete]

end TargetConfig

/-- The place of the target that a problem is about. -/
def SettingsProblem.index : SettingsProblem → Nat
  | noTargets => 0
  | ofTarget index _ => index

section Numbered

variable {ps : TargetConfig → List TargetProblem} {raws : List TargetConfig} {k : Nat}

/-- The problems with targets that are numbered from a number on. -/
def numberedProblems (ps : TargetConfig → List TargetProblem) (raws : List TargetConfig) (k : Nat) :
    List SettingsProblem :=
  (raws.zipIdx k).flatMap fun x => (ps x.1).map (.ofTarget x.2)

theorem exists_of_mem_numberedProblems {problem : SettingsProblem}
    (h : problem ∈ numberedProblems ps raws k) : ∃ i p, k ≤ i ∧ problem = .ofTarget i p := by
  obtain ⟨x, hx, hmem⟩ := List.mem_flatMap.1 h
  obtain ⟨p, -, rfl⟩ := List.mem_map.1 hmem
  exact ⟨x.2, p, List.le_snd_of_mem_zipIdx hx, rfl⟩

theorem numberedProblems_cons {raw : TargetConfig} :
    numberedProblems ps (raw :: raws) k =
      (ps raw).map (.ofTarget k) ++ numberedProblems ps raws (k + 1) := by
  rw [numberedProblems, List.zipIdx_cons, List.flatMap_cons, numberedProblems]

/-- A problem with a target is reported under the number of the target. -/
theorem count_numberedProblems (i : Nat) (p : TargetProblem) :
    (numberedProblems ps raws k).count (.ofTarget (k + i) p) =
      (raws[i]?).elim 0 fun raw => (ps raw).count p := by
  induction raws generalizing k i with
  | nil => rfl
  | cons raw raws ih =>
    rw [numberedProblems_cons, List.count_append]
    cases i with
    | zero =>
      have hlater : (numberedProblems ps raws (k + 1)).count (.ofTarget (k + 0) p) = 0 := by
        refine List.count_eq_zero.2 fun hmem => ?_
        obtain ⟨j, p', hj, heq⟩ := exists_of_mem_numberedProblems hmem
        cases heq
        omega
      rw [hlater, Nat.add_zero, Nat.add_zero,
        List.count_map_of_injective _ _ fun _ _ h => (SettingsProblem.ofTarget.inj h).2]
      rfl
    | succ i =>
      have hother : ((ps raw).map (SettingsProblem.ofTarget k)).count
          (.ofTarget (k + (i + 1)) p) = 0 := by
        refine count_map_eq_zero (fun p' heq => ?_) _
        have hk := (SettingsProblem.ofTarget.inj heq).1
        omega
      rw [hother, Nat.zero_add, ← Nat.add_assoc, Nat.add_right_comm, ih]
      rfl

theorem pairwise_numberedProblems :
    (numberedProblems ps raws k).Pairwise fun a b => a.index ≤ b.index := by
  induction raws generalizing k with
  | nil => exact List.Pairwise.nil
  | cons raw raws ih =>
    rw [numberedProblems_cons]
    refine List.pairwise_append.2 ⟨?_, ih, fun a ha b hb => ?_⟩
    · exact List.pairwise_map.2 (List.pairwise_of_forall fun _ _ => Nat.le_refl k)
    · obtain ⟨p, -, rfl⟩ := List.mem_map.1 ha
      obtain ⟨j, p', hj, rfl⟩ := exists_of_mem_numberedProblems hb
      exact (Nat.le_succ k).trans hj

end Numbered

namespace Config

variable (isDirectory : String → Bool) (base : String) (file : Option String) (c : Config)

theorem targets_settings :
    (c.settings isDirectory base file).targets =
      (c.targets.filter fun raw => raw.IsComplete).map (·.toTarget isDirectory base file) := by
  refine congrArg (List.map _) (List.filter_congr fun raw _ => ?_)
  rw [Bool.eq_iff_iff, decide_eq_true_iff, ← not_iff_not, ← TargetConfig.isIncomplete_iff]
  simp

theorem problems_settings :
    (c.settings isDirectory base file).problems =
      if c.targets = [] then [.noTargets]
      else numberedProblems (·.reported isDirectory base) c.targets 0 := by
  simp only [settings, List.isEmpty_iff, numberedProblems, TargetConfig.reported,
    apply_ite (List.map _), List.map_cons, List.map_nil]

/-- **Settings are well-formed and account for what is written.** The targets that lack no part
stand, in their order, for well-formed targets; each problem is reported as often as it is
written, by targets in their order, and without any target that is all that is reported. -/
theorem settings_wellFormed :
    List.Forall₂
        (fun raw t => t.WellFormed isDirectory ∧ raw.StandsFor isDirectory base t)
        (c.targets.filter fun raw => raw.IsComplete) (c.settings isDirectory base file).targets ∧
      (c.settings isDirectory base file).problems.count .noTargets =
        (if c.targets = [] then 1 else 0) ∧
      (∀ i p, (c.settings isDirectory base file).problems.count (.ofTarget i p) =
        (c.targets[i]?).elim 0 fun raw => raw.reports isDirectory base p) ∧
      (c.settings isDirectory base file).problems.Pairwise fun a b => a.index ≤ b.index := by
  refine ⟨?_, ?_⟩
  · rw [targets_settings, List.forall₂_map_right_iff, List.forall₂_same]
    exact fun _ _ => ⟨TargetConfig.wellFormed_toTarget file, TargetConfig.standsFor_toTarget file⟩
  rw [problems_settings]
  by_cases hnone : c.targets = []
  · rw [if_pos hnone, if_pos hnone, hnone]
    exact ⟨rfl, fun _ _ => rfl, List.pairwise_singleton _ _⟩
  · rw [if_neg hnone, if_neg hnone]
    refine ⟨?_, fun i p => ?_, pairwise_numberedProblems⟩
    · refine List.count_eq_zero.2 fun hmem => ?_
      obtain ⟨_, _, -, heq⟩ := exists_of_mem_numberedProblems hmem
      cases heq
    · rw [← Nat.zero_add i, count_numberedProblems, Nat.zero_add]
      simp only [TargetConfig.count_reported]

/-- An extension with no dot but an inner one stays without a dot at its beginning, and nothing is
reported. -/
theorem settings_keeps_innerDot :
    let raw : TargetConfig := { TargetConfig.standard with catalogExtension := some "l10n.po" }
    let s := ({ Config.standard with targets := [raw] } : Config).settings
      (fun d => d = "/p/src" || d = "/p/locales") "/p" none
    s.problems = [] ∧ ∃ t ∈ s.targets, t.catalogExtension.toList.head? ≠ some '.' := by
  decide

end Config

end Concord
