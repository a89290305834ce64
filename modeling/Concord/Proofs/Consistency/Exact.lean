import Concord.Proofs.Dictionaries
import Concord.Proofs.Repeats
import Mathlib.Data.Finset.Prod
import Mathlib.Data.Multiset.Filter

/-!
# Exactly what catalogs and code disagree about

What is expected to be found about a file is said without the indexes that finding it goes through:
one finding per call site of the file whose key no catalog has (`undefinedAt`), one per entry of the
file whose key no code asks for (`unusedAt`), and one per key and language such that the file is a
catalog of the language, some catalog has the key, and none has it in that language (`gapsAt`).
What is reported about the file is all of that in order, each finding as often as it is expected
(`disagreements_exact`).

The third kind is where the multiplicity is at stake: a key may be in many catalogs of many
languages, and still there is one finding per language that the file has. Both indexes hold each of
their keys once, so no gap is listed twice (`nodup_gaps`).
-/

namespace Concord

namespace CatalogSet

/-- Some catalog has the key. -/
def Knows (catalogs : CatalogSet) (key : String) : Prop := ∃ i ∈ catalogs.items, i.key = key

/-- Some catalog has the key in the language. -/
def Defines (catalogs : CatalogSet) (language key : String) : Prop :=
  ∃ i ∈ catalogs.items, i.key = key ∧ i.language = language

instance (catalogs : CatalogSet) (key : String) : Decidable (catalogs.Knows key) :=
  inferInstanceAs (Decidable (∃ i ∈ catalogs.items, i.key = key))

instance (catalogs : CatalogSet) (language key : String) :
    Decidable (catalogs.Defines language key) :=
  inferInstanceAs (Decidable (∃ i ∈ catalogs.items, i.key = key ∧ i.language = language))

/-- The languages that a catalog file has, with or without entries. -/
def languagesAt (catalogs : CatalogSet) (file : String) : List String :=
  match catalogs.get? file with
  | some c => c.languages.keys
  | none => []

theorem mem_languagesAt {catalogs : CatalogSet} {file language : String} :
    language ∈ catalogs.languagesAt file ↔
      ∃ c, (file, c) ∈ catalogs.entries ∧ language ∈ c.languages.keys := by
  simp only [← Dict.get?_eq_some_iff, languagesAt]
  cases catalogs.get? file <;> simp

theorem contains_keys_iff {catalogs : CatalogSet} {key : String} :
    catalogs.keys.contains key ↔ catalogs.Knows key := by
  rw [Dict.contains_iff, keys, TextSet.mem_keys_ofTexts, List.mem_map, Knows]

end CatalogSet

namespace CallSites

/-- Some code asks for the key. -/
def Asks (sites : CallSites) (key : String) : Prop := ∃ s ∈ sites.all, s.key = key

instance (sites : CallSites) (key : String) : Decidable (sites.Asks key) :=
  inferInstanceAs (Decidable (∃ s ∈ sites.all, s.key = key))

theorem contains_keys_iff {sites : CallSites} {key : String} :
    sites.keys.contains key ↔ sites.Asks key := by
  rw [Dict.contains_iff, keys, TextSet.mem_keys_ofTexts, List.mem_map, Asks]

end CallSites

namespace Consistency

variable {catalogs : CatalogSet} {sites : CallSites} {file : String}

/-! ### What is expected -/

/-- One warning per call site of a file whose key no catalog has. -/
def undefinedAt (catalogs : CatalogSet) (sites : CallSites) (file : String) : List Diagnostic :=
  (sites.all.filter fun s => s.location.file = file ∧ ¬ catalogs.Knows s.key).map fun s =>
    ⟨s.location.range, s!"undefined localization key '{s.key}' used in code", .warning,
      .undefinedKey⟩

/-- One piece of information per entry of a file whose key no code asks for. -/
def unusedAt (catalogs : CatalogSet) (sites : CallSites) (file : String) : List Diagnostic :=
  (catalogs.items.filter fun i => i.entry.location.file = file ∧ ¬ sites.Asks i.key).map fun i =>
    ⟨i.entry.location.range, s!"localization key '{i.key}' is not used in code", .information,
      .unusedKey⟩

/-- The keys that some catalog has, each with the languages of a file that lack it. -/
def gapsAt (catalogs : CatalogSet) (file : String) : Finset (String × String) :=
  ((catalogs.items.map CatalogItem.key).toFinset ×ˢ (catalogs.languagesAt file).toFinset).filter
    fun p => ¬ catalogs.Defines p.2 p.1

theorem mem_gapsAt {key language : String} : (key, language) ∈ gapsAt catalogs file ↔
    catalogs.Knows key ∧ language ∈ catalogs.languagesAt file ∧
      ¬ catalogs.Defines language key := by
  simp [gapsAt, CatalogSet.Knows, and_assoc]

/-- One warning, at the beginning of a file, per key that a language of the file lacks. -/
def missingAt (catalogs : CatalogSet) (file : String) : Multiset Diagnostic :=
  (gapsAt catalogs file).val.map fun p =>
    ⟨.zero, s!"missing translation for key '{p.1}' in language '{p.2}'", .warning,
      .missingLanguage⟩

/-- All that is expected to be found about a file. -/
def expected (catalogs : CatalogSet) (sites : CallSites) (file : String) : Multiset Diagnostic :=
  (undefinedAt catalogs sites file : Multiset Diagnostic) +
    (unusedAt catalogs sites file : Multiset Diagnostic) + missingAt catalogs file

/-! ### What the indexes hold -/

theorem mem_languagesByKey {key : String} {languages : TextSet}
    (h : (key, languages) ∈ catalogs.languagesByKey.entries) :
    catalogs.Knows key ∧ ∀ language, language ∈ languages.keys ↔ catalogs.Defines language key :=
  TextSet.of_mem_foldl_insert h

theorem exists_mem_languagesByKey {key : String} (h : catalogs.Knows key) :
    ∃ languages, (key, languages) ∈ catalogs.languagesByKey.entries :=
  TextSet.exists_mem_foldl_insert h

/-- The languages of all catalogs, each with the file that has it. -/
theorem mem_flatMap_languages {language : String} : (∃ p ∈ catalogs.entries.flatMap fun c =>
    c.2.languages.keys.map fun l => (l, c.1), p.1 = language ∧ p.2 = file) ↔
      language ∈ catalogs.languagesAt file := by
  simp only [CatalogSet.mem_languagesAt, List.mem_flatMap, List.mem_map]
  constructor
  · rintro ⟨-, ⟨⟨file, c⟩, hc, l, hl, rfl⟩, rfl, rfl⟩
    exact ⟨c, hc, hl⟩
  · rintro ⟨c, hc, hl⟩
    exact ⟨_, ⟨(file, c), hc, language, hl, rfl⟩, rfl, rfl⟩

theorem mem_filesByLanguage {language : String} {files : TextSet}
    (h : (language, files) ∈ catalogs.filesByLanguage.entries) :
    file ∈ files.keys ↔ language ∈ catalogs.languagesAt file :=
  ((TextSet.of_mem_foldl_insert h).2 file).trans mem_flatMap_languages

theorem exists_mem_filesByLanguage {language : String}
    (h : language ∈ catalogs.languagesAt file) :
    ∃ files, (language, files) ∈ catalogs.filesByLanguage.entries := by
  obtain ⟨p, hp, hlanguage, -⟩ := mem_flatMap_languages.2 h
  exact TextSet.exists_mem_foldl_insert ⟨p, hp, hlanguage⟩

/-! ### Gaps -/

/-- What the two indexes say of the keys that languages lack: a key, a language that lacks it and a
file that has the language. -/
def gaps (catalogs : CatalogSet) : List (String × String × String) :=
  catalogs.languagesByKey.entries.flatMap fun k =>
    catalogs.filesByLanguage.entries.flatMap fun l =>
      if k.2.contains l.1 then [] else l.2.keys.map fun file => (k.1, l.1, file)

theorem missingFindings_eq (catalogs : CatalogSet) :
    missingFindings catalogs = (gaps catalogs).map fun g => missing g.1 g.2.1 g.2.2 := by
  simp only [missingFindings, gaps, List.map_flatMap, apply_ite (List.map _), List.map_nil,
    List.map_map, Function.comp_def]

theorem mem_gaps {key language : String} : (key, language, file) ∈ gaps catalogs ↔
    (key, language) ∈ gapsAt catalogs file := by
  rw [mem_gapsAt, gaps, List.mem_flatMap]
  constructor
  · rintro ⟨⟨key', languages⟩, hkey, h⟩
    obtain ⟨⟨language', files⟩, hlanguage, h⟩ := List.mem_flatMap.1 h
    split at h
    · simp at h
    · next hlacks =>
      obtain ⟨file', hfile, heq⟩ := List.mem_map.1 h
      obtain ⟨rfl, rfl, rfl⟩ : key' = key ∧ language' = language ∧ file' = file := by
        simpa using heq
      obtain ⟨hknows, hdefines⟩ := mem_languagesByKey hkey
      rw [Dict.contains_iff, hdefines] at hlacks
      exact ⟨hknows, (mem_filesByLanguage hlanguage).1 hfile, hlacks⟩
  · rintro ⟨hknows, hat, hlacks⟩
    obtain ⟨languages, hkey⟩ := exists_mem_languagesByKey hknows
    obtain ⟨files, hlanguage⟩ := exists_mem_filesByLanguage hat
    refine ⟨(key, languages), hkey, List.mem_flatMap.2 ⟨(language, files), hlanguage, ?_⟩⟩
    rw [if_neg]
    · exact List.mem_map.2 ⟨file, (mem_filesByLanguage hlanguage).2 hat, rfl⟩
    · rw [Dict.contains_iff, (mem_languagesByKey hkey).2]
      exact hlacks

/-- **No gap is listed twice**: there is one entry per key, in it one per language, and in that one
per file. -/
theorem nodup_gaps (catalogs : CatalogSet) : (gaps catalogs).Nodup := by
  refine Dict.nodup_flatMap_entries Prod.fst (fun k _ => ?_) fun k _ g hg => ?_
  · refine Dict.nodup_flatMap_entries (fun g => g.2.1) (fun l _ => ?_) fun l _ g hg => ?_
    · split
      · exact List.nodup_nil
      · exact (Dict.nodup_keys l.2).map fun file file' h => by simpa using h
    · split at hg
      · simp at hg
      · obtain ⟨file, -, rfl⟩ := List.mem_map.1 hg
        rfl
  · obtain ⟨l, -, hg⟩ := List.mem_flatMap.1 hg
    split at hg
    · simp at hg
    · obtain ⟨file, -, rfl⟩ := List.mem_map.1 hg
      rfl

/-- The gaps of a file, each one once. -/
theorem filter_gaps (catalogs : CatalogSet) (file : String) :
    (((gaps catalogs).filter fun g => g.2.2 = file).map fun g => (g.1, g.2.1) :
      Multiset (String × String)) = (gapsAt catalogs file).val := by
  rw [Multiset.Nodup.ext _ (gapsAt catalogs file).nodup]
  · rintro ⟨key, language⟩
    rw [Multiset.mem_coe, Finset.mem_val, ← mem_gaps, List.mem_map]
    constructor
    · rintro ⟨⟨key', language', file'⟩, hfilter, heq⟩
      obtain ⟨hg, rfl⟩ : (key', language', file') ∈ gaps catalogs ∧ file' = file := by
        simpa using hfilter
      obtain ⟨rfl, rfl⟩ : key' = key ∧ language' = language := by simpa using heq
      exact hg
    · exact fun hg => ⟨(key, language, file), List.mem_filter.2 ⟨hg, by simp⟩, rfl⟩
  · refine Multiset.coe_nodup.2 (((nodup_gaps catalogs).filter _).map_on ?_)
    rintro ⟨key, language, file₁⟩ h₁ ⟨key', language', file₂⟩ h₂ heq
    obtain rfl : file₁ = file := by simpa using (List.mem_filter.1 h₁).2
    obtain rfl : file₂ = file₁ := by simpa using (List.mem_filter.1 h₂).2
    simpa using heq

/-! ### What is found -/

/-- What is found about a file. -/
def findingsAt (found : List FileFinding) (file : String) : List Diagnostic :=
  (found.filter fun e => e.1 = file).map Prod.snd

theorem findingsAt_append (found found' : List FileFinding) (file : String) :
    findingsAt (found ++ found') file = findingsAt found file ++ findingsAt found' file := by
  rw [findingsAt, List.filter_append, List.map_append, findingsAt, findingsAt]

theorem findingsAt_map {α : Type} (finding : α → FileFinding) (xs : List α) (file : String) :
    findingsAt (xs.map finding) file =
      (xs.filter fun x => (finding x).1 = file).map fun x => (finding x).2 := by
  rw [findingsAt, List.filter_map, List.map_map]
  rfl

theorem findingsAt_undefinedFindings (catalogs : CatalogSet) (sites : CallSites) (file : String) :
    findingsAt (undefinedFindings catalogs sites) file = undefinedAt catalogs sites file := by
  rw [undefinedFindings, findingsAt_map, List.filter_filter, undefinedAt]
  refine congrArg (List.map _) (List.filter_congr fun s _ => Bool.eq_iff_iff.2 ?_)
  rw [Bool.and_eq_true, decide_eq_true_iff, decide_eq_true_iff, Bool.not_eq_true',
    ← CatalogSet.contains_keys_iff, Bool.not_eq_true]
  exact Iff.rfl

theorem findingsAt_unusedFindings (catalogs : CatalogSet) (sites : CallSites) (file : String) :
    findingsAt (unusedFindings catalogs sites) file = unusedAt catalogs sites file := by
  rw [unusedFindings, findingsAt_map, List.filter_filter, unusedAt]
  refine congrArg (List.map _) (List.filter_congr fun i _ => Bool.eq_iff_iff.2 ?_)
  rw [Bool.and_eq_true, decide_eq_true_iff, decide_eq_true_iff, Bool.not_eq_true',
    ← CallSites.contains_keys_iff, Bool.not_eq_true]
  exact Iff.rfl

theorem findingsAt_missingFindings (catalogs : CatalogSet) (file : String) :
    (findingsAt (missingFindings catalogs) file : Multiset Diagnostic) =
      missingAt catalogs file := by
  rw [missingFindings_eq, findingsAt_map, missingAt, ← filter_gaps, Multiset.map_coe,
    List.map_map]
  rfl

theorem foldl_append_findings (found : List FileFinding) (ds : List Diagnostic) :
    found.foldl (fun ds e => ds ++ [e.2]) ds = ds ++ found.map Prod.snd := by
  induction found generalizing ds with
  | nil => simp
  | cons e found ih => simp [ih]

theorem get?_foldl_add (found : List FileFinding) (file : String) :
    (found.foldl (fun f e => Findings.add f e.1 e.2) Dict.empty).get? file =
      if findingsAt found file = [] then none else some (findingsAt found file) := by
  have h := Dict.get?_foldl_collect Prod.fst (fun (ds : List Diagnostic) e => ds ++ [e.2]) []
    found file
  rw [foldl_append_findings, List.nil_append, ← findingsAt] at h
  refine h.trans (if_congr ?_ rfl rfl)
  rw [findingsAt, List.map_eq_nil_iff]

/-- All findings, in the order in which they are looked for. -/
def found (catalogs : CatalogSet) (sites : CallSites) : List FileFinding :=
  undefinedFindings catalogs sites ++ unusedFindings catalogs sites ++ missingFindings catalogs

/-- **What is found about a file is what is expected**, each finding as often. -/
theorem findingsAt_found (catalogs : CatalogSet) (sites : CallSites) (file : String) :
    (findingsAt (found catalogs sites) file : Multiset Diagnostic) =
      expected catalogs sites file := by
  rw [found, findingsAt_append, findingsAt_append, findingsAt_undefinedFindings,
    findingsAt_unusedFindings, ← Multiset.coe_add, ← Multiset.coe_add,
    findingsAt_missingFindings, expected]

theorem get?_disagreements (catalogs : CatalogSet) (sites : CallSites) (file : String) :
    (disagreements catalogs sites).get? file =
      if findingsAt (found catalogs sites) file = [] then none
      else some (Diagnostic.sort (findingsAt (found catalogs sites) file)) := by
  rw [disagreements, Dict.get?_mapValues, get?_foldl_add, found]
  split <;> rfl

/-! ### Findings in order -/

/-- Findings in order. -/
def Ordered (ds : List Diagnostic) : Prop := ds.Pairwise fun d d' => (compare d d').isLE

theorem ordered_sort (ds : List Diagnostic) : Ordered (Diagnostic.sort ds) :=
  orderedBy_mergeSort id ds

/-- **Findings have one order.** -/
theorem eq_of_perm_of_ordered {ds ds' : List Diagnostic} (hperm : ds.Perm ds') (h : Ordered ds)
    (h' : Ordered ds') : ds = ds' := by
  refine hperm.eq_of_pairwise (fun d d' _ _ hle hge => ?_) h h'
  exact Std.LawfulEqCmp.eq_of_compare (Std.OrientedCmp.isLE_antisymm hle hge)

/-- **What is reported about a file is what is expected, in order.** Nothing is reported about a
file that nothing is expected of; and otherwise the report is the one list, in order, that has each
finding as often as it is expected. -/
theorem disagreements_exact (catalogs : CatalogSet) (sites : CallSites) (file : String) :
    ((disagreements catalogs sites).get? file = none ↔ expected catalogs sites file = 0) ∧
    ∀ ds, (disagreements catalogs sites).get? file = some ds ↔
      ds ≠ [] ∧ (ds : Multiset Diagnostic) = expected catalogs sites file ∧ Ordered ds := by
  rw [← findingsAt_found, Multiset.coe_eq_zero]
  simp only [Multiset.coe_eq_coe]
  have hget := get?_disagreements catalogs sites file
  by_cases hnone : findingsAt (found catalogs sites) file = []
  · rw [hget, if_pos hnone, hnone]
    exact ⟨by simp, fun ds => ⟨fun h => by simp at h, fun h => absurd h.2.1.eq_nil h.1⟩⟩
  · rw [hget, if_neg hnone]
    have hperm : (Diagnostic.sort (findingsAt (found catalogs sites) file)).Perm
        (findingsAt (found catalogs sites) file) := List.mergeSort_perm _ _
    refine ⟨by simp [hnone], fun ds => ?_⟩
    rw [Option.some_inj]
    constructor
    · rintro rfl
      exact ⟨fun h => hnone (h ▸ hperm).symm.eq_nil, hperm, ordered_sort _⟩
    · rintro ⟨-, hds, hordered⟩
      exact eq_of_perm_of_ordered (hperm.trans hds.symm) (ordered_sort _) hordered

/-- A language without entries lacks the key of another one, in each of its files. -/
example :
    let english : Catalog := ⟨.ofList [("en", .ofList [("a", ⟨"A", "en.po", .zero⟩)])], [], true⟩
    let german : Catalog := ⟨.ofList [("de", .empty)], [], true⟩
    let site : CallSite := ⟨"a", ⟨"m.py", .zero⟩, .zero, .zero, .doubleQuoted⟩
    disagreements (.ofList [("en.po", english), ("de.po", german), ("at.po", german)])
        (.ofList [("m.py", [site])]) =
      .ofList [("at.po", [(missing "a" "de" "at.po").2]),
        ("de.po", [(missing "a" "de" "de.po").2])] := by
  decide +kernel

end Consistency

end Concord
