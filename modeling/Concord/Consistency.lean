import Concord.Catalog.Basic
import Concord.Source.CallSite

/-!
# Whether catalogs and code agree

Catalogs and code meet in the keys alone. A key that code asks for and no catalog has is
**undefined**; an entry whose key no code asks for is **unused**; a key that some language has and
another has not is **missing** in every catalog file of the other language.

* `CatalogSet`, `CallSites` – what is known about catalogs and code, per file;
* `undefinedFindings`, `unusedFindings`, `missingFindings` – the findings of each kind;
* `disagreements` – all of them, per file and in order.
-/

namespace Concord

/-- The catalogs that are known, by file. -/
abbrev CatalogSet := Dict Catalog

/-- The call sites that are known, by file. -/
abbrev CallSites := Dict (List CallSite)

/-- A set of texts. -/
abbrev TextSet := Dict Unit

namespace TextSet

/-- The texts of a list. -/
def ofTexts (texts : List String) : TextSet := texts.foldl (fun s t => s.insert t ()) .empty

end TextSet

namespace CatalogSet

/-- All entries of all catalogs, ordered by file, language and key. -/
def items (cs : CatalogSet) : List CatalogItem := cs.values.flatMap Catalog.items

/-- The keys that some catalog has. -/
def keys (cs : CatalogSet) : TextSet := .ofTexts (cs.items.map CatalogItem.key)

/-- The languages that each key has a value in. -/
def languagesByKey (cs : CatalogSet) : Dict TextSet :=
  cs.items.foldl
    (fun d i => d.upsert i.key fun old => (old.getD .empty).insert i.language ()) .empty

/-- The catalog files of each language, also of a language without entries. -/
def filesByLanguage (cs : CatalogSet) : Dict TextSet :=
  (cs.entries.flatMap fun c => c.2.languages.keys.map fun l => (l, c.1)).foldl
    (fun d p => d.upsert p.1 fun old => (old.getD .empty).insert p.2 ()) .empty

end CatalogSet

namespace CallSites

/-- All call sites of all files. -/
def all (ss : CallSites) : List CallSite := ss.values.flatten

/-- The keys that code asks for. -/
def keys (ss : CallSites) : TextSet := .ofTexts (ss.all.map CallSite.key)

end CallSites

namespace Consistency

/-- A finding about a file. -/
abbrev FileFinding := String × Diagnostic

/-- A call site whose key no catalog has. -/
def undefined (s : CallSite) : FileFinding :=
  (s.location.file,
    ⟨s.location.range, s!"undefined localization key '{s.key}' used in code", .warning,
      .undefinedKey⟩)

/-- A catalog entry whose key code does not ask for. -/
def unused (i : CatalogItem) : FileFinding :=
  (i.entry.location.file,
    ⟨i.entry.location.range, s!"localization key '{i.key}' is not used in code", .information,
      .unusedKey⟩)

/-- A key that a language lacks, reported at the beginning of one of its catalogs. -/
def missing (key language file : String) : FileFinding :=
  (file,
    ⟨.zero, s!"missing translation for key '{key}' in language '{language}'", .warning,
      .missingLanguage⟩)

/-- The call sites whose keys no catalog has. -/
def undefinedFindings (catalogs : CatalogSet) (sites : CallSites) : List FileFinding :=
  let known := catalogs.keys
  (sites.all.filter fun s => !known.contains s.key).map undefined

/-- The entries whose keys no code asks for. -/
def unusedFindings (catalogs : CatalogSet) (sites : CallSites) : List FileFinding :=
  let used := sites.keys
  (catalogs.items.filter fun i => !used.contains i.key).map unused

/-- The keys that languages lack. -/
def missingFindings (catalogs : CatalogSet) : List FileFinding :=
  let files := catalogs.filesByLanguage
  catalogs.languagesByKey.entries.flatMap fun k =>
    files.entries.flatMap fun l =>
      if k.2.contains l.1 then [] else l.2.keys.map (missing k.1 l.1)

/-- Where catalogs and code disagree, per file and in order. -/
def disagreements (catalogs : CatalogSet) (sites : CallSites) : Findings :=
  let all := undefinedFindings catalogs sites ++ unusedFindings catalogs sites
    ++ missingFindings catalogs
  (all.foldl (fun f e => Findings.add f e.1 e.2) Dict.empty).mapValues Diagnostic.sort

end Consistency

end Concord
