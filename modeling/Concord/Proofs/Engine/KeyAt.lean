import Concord.Proofs.Catalog.KeyLines
import Concord.Proofs.Engine.Rename

/-!
# The key at a place

An engine looks for the key at a place in one of its caches, and takes the first that the place
touches, its end included. It could have taken any: the keys of the call sites of a file do not even
touch, as each stands in a literal of its own, and the keys of a catalog stand on different lines.
As no file is in both caches, the key at a place is the key that has a location there
(`Engine.keyAt?_eq_some_iff`).
-/

namespace Concord

universe u v

/-- Where all hits agree, what the first one says is what any of them says. -/
theorem map_find?_eq_some_iff {α : Type u} {β : Type v} {l : List α} {hit : α → Bool} {f : α → β}
    {b : β} (hagree : ∀ x ∈ l, ∀ y ∈ l, hit x → hit y → f x = f y) :
    (l.find? hit).map f = some b ↔ ∃ x ∈ l, hit x ∧ f x = b := by
  rw [Option.map_eq_some_iff]
  constructor
  · rintro ⟨x, hx, rfl⟩
    exact ⟨x, List.mem_of_find?_eq_some hx, List.find?_some hx, rfl⟩
  · rintro ⟨x, hx, hhit, rfl⟩
    obtain ⟨y, hy⟩ := Option.isSome_iff_exists.1 (List.find?_isSome.2 ⟨x, hx, hhit⟩)
    exact ⟨y, hy, hagree y (List.mem_of_find?_eq_some hy) x hx (List.find?_some hy) hhit⟩

theorem Catalog.mem_items_parse {file text : String} {i : CatalogItem} :
    i ∈ (parse file text).items ↔ i.language = languageOf file text ∧
      (entriesOf file text).get? i.key = some i.entry := by
  obtain ⟨language, key, entry⟩ := i
  rw [items, languages_parse, Dict.get?_eq_some_iff]
  change _ ∈ List.flatMap _ [(languageOf file text, entriesOf file text)] ↔ _
  simp [and_comm, eq_comm]

namespace Engine

/-! ### Locations -/

section Locations

variable {e : Engine} (he : e.Routed) {key : String} {l : Location}

include he

/-- **Where a key is asked for**: in the code file that the location names. -/
theorem Routed.mem_codeLocations_iff :
    l ∈ e.codeLocations key ↔ ∃ sites, e.sources.get? l.file = some sites ∧
      ∃ s ∈ sites, s.key = key ∧ s.location = l := by
  rw [codeLocations, List.mem_map]
  constructor
  · rintro ⟨s, hs, rfl⟩
    obtain ⟨hkey, sites, hsites, hs⟩ := he.mem_codeSites_iff.1 hs
    exact ⟨sites, hsites, s, hs, hkey, rfl⟩
  · rintro ⟨sites, hsites, s, hs, hkey, rfl⟩
    exact ⟨s, he.mem_codeSites_iff.2 ⟨hkey, sites, hsites, hs⟩, rfl⟩

/-- **Where a key is defined**: in the catalog file that the location names. -/
theorem Routed.mem_catalogLocations_iff :
    l ∈ e.catalogLocations key ↔ ∃ text entry,
      e.catalogs.get? l.file = some (Catalog.parse l.file text) ∧
      (Catalog.entriesOf l.file text).get? key = some entry ∧ entry.location = l := by
  rw [catalogLocations, sortLocations, List.mem_mergeSort, List.mem_flatMap]
  simp only [Cache.mem_values_snapshot_iff]
  constructor
  · rintro ⟨c, ⟨file, hc⟩, hl⟩
    obtain ⟨-, text, rfl⟩ := he.catalogs.held file c hc
    rw [locations_parse, Option.mem_toList, Option.map_eq_some_iff,
      Catalog.entryFor?_parse] at hl
    obtain ⟨entry, hentry, rfl⟩ := hl
    obtain rfl := Catalog.file_of_get?_entriesOf hentry
    exact ⟨text, entry, hc, hentry, rfl⟩
  · rintro ⟨text, entry, hc, hentry, rfl⟩
    refine ⟨_, ⟨_, hc⟩, ?_⟩
    rw [locations_parse, Catalog.entryFor?_parse, hentry]
    exact List.mem_singleton_self _

end Locations

/-! ### One place, one key -/

/-- Whether the literals of a text that is read for a file lie apart. -/
def LiteralsApart (t : Target) (reader : Source.Reader) (file text : String) : Prop :=
  ∀ language ∈ sourceLanguage? t file, ∀ tree ∈ reader language text.toList,
    tree.LiteralsApart language text.toList

/-- Whether the literals lie apart in what was read for a file. An engine keeps no texts: it has
what it found in one. -/
def ReadsApart (e : Engine) (file : String) : Prop :=
  ∀ sites, e.sources.get? file = some sites → ∃ text,
    sites = parseSource e.target e.reader file text ∧ LiteralsApart e.target e.reader file text

theorem placed_parseSource {t : Target} {reader : Source.Reader} {file text : String}
    (hapart : LiteralsApart t reader file text) :
    Rename.Placed text.toList (parseSource t reader file text) := by
  rw [parseSource]
  split
  · next language hlanguage =>
    exact Source.placed_extract file t.functions (hapart language hlanguage)
  · exact ⟨List.forall_mem_nil _, List.forall_mem_nil _, List.forall_mem_nil _,
      List.forall_mem_nil _, List.forall_mem_nil _⟩

section Caches

variable {e : Engine} (he : e.Routed) {file key : String} (p : Position)

include he

/-- **No file is in both caches**: what may be asked of the code cache is no catalog. -/
theorem Routed.catalogs_get?_eq_none {sites : List CallSite}
    (h : e.sources.get? file = some sites) : e.catalogs.get? file = none := by
  obtain ⟨hsource, -⟩ := he.sources.held file sites h
  rw [Target.isSourceFile, Bool.and_eq_true, Bool.not_eq_true'] at hsource
  rw [Option.eq_none_iff_forall_ne_some]
  intro c hc
  obtain ⟨hcatalog, -⟩ := he.catalogs.held file c hc
  rw [hsource.1] at hcatalog
  exact Bool.false_ne_true hcatalog

theorem Routed.sources_get?_ne_none {l : Location} (hl : l ∈ e.codeLocations key) :
    e.sources.get? l.file ≠ none := by
  obtain ⟨sites, hsites, -⟩ := he.mem_codeLocations_iff.1 hl
  rw [hsites]
  exact Option.some_ne_none sites

theorem Routed.catalogs_get?_ne_none {l : Location} (hl : l ∈ e.catalogLocations key) :
    e.catalogs.get? l.file ≠ none := by
  obtain ⟨text, entry, hc, -⟩ := he.mem_catalogLocations_iff.1 hl
  rw [hc]
  exact Option.some_ne_none _

/-- In a code file the first call site that a place touches is the only one. -/
theorem Routed.find?_sites_iff (hapart : e.ReadsApart file) {sites : List CallSite}
    (h : e.sources.get? file = some sites) :
    (sites.find? fun s => s.location.range.touches p).map CallSite.key = some key ↔
      ∃ l ∈ e.codeLocations key, l.file = file ∧ l.range.touches p := by
  obtain ⟨text, rfl, htext⟩ := hapart sites h
  have hplaced := placed_parseSource htext
  rw [map_find?_eq_some_iff fun s hs t ht hsp htp =>
    congrArg CallSite.key (Rename.eq_of_touches hplaced hs ht hsp htp)]
  constructor
  · rintro ⟨s, hs, htouches, rfl⟩
    obtain rfl := file_of_mem_parseSource hs
    exact ⟨s.location, he.mem_codeLocations_iff.2 ⟨_, h, s, hs, rfl, rfl⟩, rfl, htouches⟩
  · rintro ⟨l, hl, rfl, htouches⟩
    obtain ⟨sites, hsites, s, hs, hkey, rfl⟩ := he.mem_codeLocations_iff.1 hl
    obtain rfl := Option.some.inj (h.symm.trans hsites)
    exact ⟨s, hs, htouches, hkey⟩

/-- In a catalog all entries that a place touches are of one key. -/
theorem Routed.find?_items_iff {c : Catalog} (h : e.catalogs.get? file = some c) :
    (c.items.find? fun i => i.entry.location.range.touches p).map CatalogItem.key = some key ↔
      ∃ l ∈ e.catalogLocations key, l.file = file ∧ l.range.touches p := by
  obtain ⟨-, text, rfl⟩ := he.catalogs.held file c h
  rw [map_find?_eq_some_iff fun i hi j hj hip hjp =>
    Catalog.eq_of_touches (Catalog.mem_items_parse.1 hi).2 (Catalog.mem_items_parse.1 hj).2 hip hjp]
  constructor
  · rintro ⟨i, hi, htouches, rfl⟩
    obtain ⟨-, hentry⟩ := Catalog.mem_items_parse.1 hi
    obtain rfl := Catalog.file_of_get?_entriesOf hentry
    exact ⟨i.entry.location, he.mem_catalogLocations_iff.2 ⟨text, i.entry, h, hentry, rfl⟩, rfl,
      htouches⟩
  · rintro ⟨l, hl, rfl, htouches⟩
    obtain ⟨text', entry, hc, hentry, rfl⟩ := he.mem_catalogLocations_iff.1 hl
    have hitem : ⟨Catalog.languageOf entry.location.file text', key, entry⟩ ∈
        (Catalog.parse entry.location.file text').items := Catalog.mem_items_parse.2 ⟨rfl, hentry⟩
    rw [h, Option.some.injEq] at hc
    rw [← hc] at hitem
    exact ⟨_, hitem, htouches, rfl⟩

end Caches

/-- **The key at a place is the key that has a location there**, its end included, where the
literals of what was read for the file lie apart. -/
theorem keyAt?_eq_some_iff {e : Engine} (he : e.Reachable) {file : String}
    (hapart : e.ReadsApart file) (p : Position) (key : String) :
    e.keyAt? file p = some key ↔
      ∃ l, (l ∈ e.codeLocations key ∨ l ∈ e.catalogLocations key) ∧ l.file = file ∧
        l.range.start ≤ p ∧ p ≤ l.range.stop := by
  have hrouted := he.routed
  simp only [← Range.touches_iff, or_and_right, exists_or]
  rw [keyAt?]
  cases hsites : e.sources.get? file with
  | some sites =>
    have hnone := hrouted.catalogs_get?_eq_none hsites
    have hnot : ¬ ∃ l, l ∈ e.catalogLocations key ∧ l.file = file ∧ l.range.touches p :=
      fun ⟨l, hl, hfile, _⟩ => hrouted.catalogs_get?_ne_none hl (hfile ▸ hnone)
    rw [or_iff_left hnot]
    exact hrouted.find?_sites_iff p hapart hsites
  | none =>
    have hnot : ¬ ∃ l, l ∈ e.codeLocations key ∧ l.file = file ∧ l.range.touches p :=
      fun ⟨l, hl, hfile, _⟩ => hrouted.sources_get?_ne_none hl (hfile ▸ hsites)
    rw [or_iff_right hnot]
    cases hc : e.catalogs.get? file with
    | some c => exact hrouted.find?_items_iff p hc
    | none =>
      have hnot' : ¬ ∃ l, l ∈ e.catalogLocations key ∧ l.file = file ∧ l.range.touches p :=
        fun ⟨l, hl, hfile, _⟩ => hrouted.catalogs_get?_ne_none hl (hfile ▸ hc)
      exact iff_of_false nofun hnot'

/-- A code file with two literals, one of which is a key. -/
def keyedCode : String := "_('b', 'c')\n"

/-- An engine that was told of that file, and of a catalog with a key on two lines. -/
def keyedEngine : Engine :=
  ((((new sampleTarget .standard 500).handleEvent
    ⟨"/p/src/m.py", .created, some keyedCode⟩).2.handleEvent
    ⟨"/p/locales/en.po", .created, some "msgid \"\"\n\"a\"\nmsgstr \"A\"\n"⟩).2).flush
    (MemoryWorkspace.ofFiles .empty) 0

theorem readsApart_code : keyedEngine.ReadsApart "/p/src/m.py" := by
  have hread : keyedEngine.sources.get? "/p/src/m.py" =
      some (parseSource keyedEngine.target keyedEngine.reader "/p/src/m.py" keyedCode) := by
    decide +kernel
  have hlanguage : sourceLanguage? keyedEngine.target "/p/src/m.py" = some .python := by
    decide +kernel
  intro sites hsites
  refine ⟨keyedCode, (Option.some.inj (hread.symm.trans hsites)).symm, ?_⟩
  rintro language hl tree htree
  obtain rfl := Option.some.inj (hlanguage.symm.trans hl)
  obtain rfl := Option.some.inj htree
  exact Source.Tree.literalsApart_of_pairwise (by decide +kernel)

theorem readsApart_catalog : keyedEngine.ReadsApart "/p/locales/en.po" := by
  have hnone : keyedEngine.sources.get? "/p/locales/en.po" = none := by decide +kernel
  intro sites hsites
  rw [hnone] at hsites
  cases hsites

/-- The statement above speaks of this engine, of the end of a key in code and of the end of the key
in the catalog. -/
theorem keyAt?_sample :
    keyedEngine.Reachable ∧ keyedEngine.ReadsApart "/p/src/m.py" ∧
    keyedEngine.ReadsApart "/p/locales/en.po" ∧
    keyedEngine.keyAt? "/p/src/m.py" ⟨0, 4⟩ = some "b" ∧
    keyedEngine.keyAt? "/p/locales/en.po" ⟨1, 3⟩ = some "a" := by
  have hreachable : keyedEngine.Reachable := .flush _ _ (.event _ (.event _ (.new _ _ _)))
  have hcode : ⟨"/p/src/m.py", ⟨⟨0, 3⟩, ⟨0, 4⟩⟩⟩ ∈ keyedEngine.codeLocations "b" := by
    decide +kernel
  have hcatalog : ⟨"/p/locales/en.po", ⟨⟨0, 6⟩, ⟨1, 3⟩⟩⟩ ∈ keyedEngine.catalogLocations "a" := by
    decide +kernel
  refine ⟨hreachable, readsApart_code, readsApart_catalog, ?_, ?_⟩
  · exact (keyAt?_eq_some_iff hreachable readsApart_code _ _).2
      ⟨_, .inl hcode, rfl, by decide, by decide⟩
  · exact (keyAt?_eq_some_iff hreachable readsApart_catalog _ _).2
      ⟨_, .inr hcatalog, rfl, by decide, by decide⟩

end Engine

end Concord
