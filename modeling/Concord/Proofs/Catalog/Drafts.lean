import Concord.Proofs.Catalog.Events

/-!
# What a catalog says

Apart from the places, a closed entry is a `Draft`: a key and perhaps a value. The drafts of a text
in order decide what its catalog says: the language is that of the last header that declares one,
and a key stands for the value of the last draft that stores it. The reading is a success when
nothing was found and every draft is sound.

* `drafts` – the drafts among some events, `storedKeys` – the keys that a text stores, one for each
  entry that stores it;
* `languages_parse`, `get?_entriesOf`, `success_parse` – a catalog in these terms.
-/

namespace Concord.Catalog

/-- A closed entry without the places it was read from. -/
structure Draft where
  key : List Char
  value : Option (List Char)
deriving DecidableEq, Repr

/-- An entry without the places it was read from. -/
def OpenEntry.draft (e : OpenEntry) : Draft := ⟨e.key, e.value.map Prod.fst⟩

namespace Draft

/-- The key and the value that a draft stores: none for a header, and none for a missing or a blank
value. -/
def stored? (d : Draft) : Option (String × String) :=
  match d.key, d.value with
  | c :: cs, some text =>
    if Text.trim text = [] then none else some (String.ofList (c :: cs), String.ofList text)
  | _, _ => none

/-- The value that a draft stores for a key. -/
def valueFor? (key : String) (d : Draft) : Option String :=
  (d.stored?.filter fun p => p.1 = key).map Prod.snd

/-- The language that a draft declares, if it is a header. -/
def language? (d : Draft) : Option String :=
  match d.key with
  | [] => (headerLanguage? (d.value.getD [])).map String.ofList
  | _ :: _ => none

/-- Whether a draft is a header or stores something. -/
def isSound (d : Draft) : Bool := d.key.isEmpty || d.stored?.isSome

end Draft

namespace Event

/-- The draft of a closed entry. -/
def draft? : Event → Option Draft
  | closed e => some e.draft
  | finding _ => none

/-- The entry that an event stores for a key. -/
def entryFor? (file key : String) : Event → Option CatalogEntry
  | closed e => (e.draft.valueFor? key).map fun value => ⟨value, ⟨file, e.keyRange⟩⟩
  | finding _ => none

/-- Whether an event leaves the reading a success. -/
def isSound (ev : Event) : Bool := ev.draft?.any Draft.isSound

theorem value_entryFor? (file key : String) (ev : Event) :
    (ev.entryFor? file key).map CatalogEntry.value = ev.draft?.bind (Draft.valueFor? key) := by
  cases ev with
  | closed e => cases h : e.draft.valueFor? key <;> simp [entryFor?, draft?, h]
  | finding d => rfl

end Event

/-- The drafts among some events. -/
def drafts (es : List Event) : List Draft := es.filterMap Event.draft?

@[simp] theorem drafts_nil : drafts [] = [] := rfl

@[simp] theorem drafts_closed (e : OpenEntry) (es : List Event) :
    drafts (.closed e :: es) = e.draft :: drafts es := rfl

@[simp] theorem drafts_finding (d : Diagnostic) (es : List Event) :
    drafts (.finding d :: es) = drafts es := rfl

@[simp] theorem drafts_append (es es' : List Event) :
    drafts (es ++ es') = drafts es ++ drafts es' :=
  List.filterMap_append

/-- The value of the last of some drafts that stores a key. -/
def lastValue? (key : String) (ds : List Draft) : Option String :=
  ds.reverse.findSome? (Draft.valueFor? key)

/-- The language of the last of some drafts that declares one. -/
def lastLanguage? (ds : List Draft) : Option String := ds.reverse.findSome? Draft.language?

theorem lastValue?_append (key : String) (ds ds' : List Draft) :
    lastValue? key (ds ++ ds') = (lastValue? key ds').or (lastValue? key ds) := by
  rw [lastValue?, List.reverse_append, List.findSome?_append, lastValue?, lastValue?]

theorem lastLanguage?_append (ds ds' : List Draft) :
    lastLanguage? (ds ++ ds') = (lastLanguage? ds').or (lastLanguage? ds) := by
  rw [lastLanguage?, List.reverse_append, List.findSome?_append, lastLanguage?, lastLanguage?]

/-- The keys that some drafts store, one for each that stores it. -/
def storedIn (ds : List Draft) : List String := ds.filterMap fun d => d.stored?.map Prod.fst

/-- The keys that a text stores, one for each entry that stores it. -/
def storedKeys (text : String) : List String := storedIn (drafts (events text))

theorem valueFor?_eq_none_iff {key : String} {d : Draft} :
    d.valueFor? key = none ↔ d.stored?.map Prod.fst ≠ some key := by
  rcases h : d.stored? with _ | ⟨k, v⟩
  · simp [Draft.valueFor?, h]
  · by_cases hk : k = key <;> simp [Draft.valueFor?, h, hk]

/-- **What has a value is what is stored.** -/
theorem lastValue?_eq_none_iff {key : String} {ds : List Draft} :
    lastValue? key ds = none ↔ key ∉ storedIn ds := by
  simp only [lastValue?, List.findSome?_eq_none_iff, List.mem_reverse, valueFor?_eq_none_iff,
    storedIn, List.mem_filterMap, not_exists, not_and, ne_eq]

/-! ### What closed entries come to -/

namespace Reader

variable (r : Reader) (file : String)

theorem language_store (key : String) (range : Range) (value : List Char) :
    (r.store file key range value).language = r.language := by
  cases h : r.entries.contains key <;> simp [store, report, h]

theorem entries_store (key : String) (range : Range) (value : List Char) :
    (r.store file key range value).entries =
      r.entries.insert key ⟨String.ofList value, ⟨file, range⟩⟩ := by
  cases h : r.entries.contains key <;> simp [store, report, h]

theorem success_store (key : String) (range : Range) (value : List Char) :
    (r.store file key range value).success = r.success := by
  cases h : r.entries.contains key <;> simp [store, report, h]

theorem language_finish (e : OpenEntry) :
    (r.finish file e).language = e.draft.language?.getD r.language := by
  rcases e with ⟨_ | ⟨k, ks⟩, range, _ | ⟨text, textRange⟩⟩
  · simp only [finish, OpenEntry.draft, Draft.language?, Option.map_none]
    cases headerLanguage? (Option.getD none []) <;> rfl
  · simp only [finish, OpenEntry.draft, Draft.language?, Option.map_some]
    cases headerLanguage? (Option.getD (some text) []) <;> rfl
  · rfl
  · simp only [finish]
    split
    · rfl
    · exact language_store r file _ range text

theorem get?_finish (e : OpenEntry) (key : String) :
    (r.finish file e).entries.get? key =
      ((Event.closed e).entryFor? file key).or (r.entries.get? key) := by
  -- a header stores nothing, nor does an entry without a value
  rcases e with ⟨_ | ⟨k, ks⟩, range, _ | ⟨text, textRange⟩⟩
  · simp only [finish]
    split <;> rfl
  · simp only [finish]
    split <;> rfl
  · rfl
  · simp only [finish, Event.entryFor?, OpenEntry.draft, Draft.valueFor?, Draft.stored?,
      Option.map_some]
    split
    · rfl
    · rw [entries_store, Dict.get?_insert]
      generalize String.ofList (k :: ks) = stored
      by_cases hkey : key = stored
      · simp [hkey, Option.filter_some]
      · simp [hkey, Ne.symm hkey, Option.filter_some]

theorem success_finish (e : OpenEntry) :
    (r.finish file e).success = (r.success && e.draft.isSound) := by
  rcases e with ⟨_ | ⟨k, ks⟩, range, _ | ⟨text, textRange⟩⟩
  · simp only [finish]
    split <;> simp [Draft.isSound, OpenEntry.draft]
  · simp only [finish]
    split <;> simp [Draft.isSound, OpenEntry.draft]
  · simp [finish, fail, Draft.isSound, OpenEntry.draft, Draft.stored?]
  · simp only [finish]
    split
    · next h => simp [fail, Draft.isSound, OpenEntry.draft, Draft.stored?, h]
    · next h =>
      rw [success_store]
      simp [Draft.isSound, OpenEntry.draft, Draft.stored?, h]

/-! ### What events come to -/

theorem language_absorbAll (es : List Event) :
    (r.absorbAll file es).language = (lastLanguage? (drafts es)).getD r.language := by
  induction es generalizing r with
  | nil => rfl
  | cons ev es ih =>
    rw [absorbAll_cons, ih]
    cases ev with
    | closed e =>
      rw [drafts_closed, ← List.singleton_append, lastLanguage?_append, absorb, language_finish]
      cases lastLanguage? (drafts es) <;> simp [lastLanguage?]
    | finding d => rfl

theorem get?_absorbAll (es : List Event) (key : String) :
    (r.absorbAll file es).entries.get? key =
      (es.reverse.findSome? (Event.entryFor? file key)).or (r.entries.get? key) := by
  induction es generalizing r with
  | nil => rfl
  | cons ev es ih =>
    rw [absorbAll_cons, ih, List.reverse_cons, List.findSome?_append, Option.or_assoc]
    congr 1
    cases ev with
    | closed e =>
      rw [absorb, get?_finish]
      simp
    | finding d => rfl

theorem success_absorbAll (es : List Event) :
    (r.absorbAll file es).success = (r.success && es.all Event.isSound) := by
  induction es generalizing r with
  | nil => simp
  | cons ev es ih =>
    rw [absorbAll_cons, ih, List.all_cons, ← Bool.and_assoc]
    congr 1
    cases ev with
    | closed e => exact success_finish r file e
    | finding d => simp [absorb, Event.isSound, Event.draft?]

end Reader

/-! ### Places do not matter -/

/-- Some events without places: the drafts, and nothing for what was found. -/
def gists (es : List Event) : List (Option Draft) := es.map Event.draft?

@[simp] theorem gists_append (es es' : List Event) : gists (es ++ es') = gists es ++ gists es' :=
  List.map_append

theorem drafts_eq_reduceOption (es : List Event) : drafts es = (gists es).reduceOption := by
  rw [drafts, gists]
  change _ = (es.map Event.draft?).filterMap id
  rw [List.filterMap_map]
  rfl

theorem all_isSound_eq (es : List Event) :
    es.all Event.isSound = (gists es).all fun g => g.any Draft.isSound := by
  rw [gists, List.all_map]
  rfl

/-- Two cursors that differ at most in places. -/
structure Cursor.Like (c c' : Cursor) : Prop where
  focus : c.focus = c'.focus
  current : c.current.map OpenEntry.draft = c'.current.map OpenEntry.draft

namespace Cursor

theorem Like.refl (c : Cursor) : c.Like c := ⟨rfl, rfl⟩

theorem Like.gists_closing {c c' : Cursor} (h : c.Like c') :
    gists c.closing = gists c'.closing := by
  have hcurrent := h.current
  rcases hc : c.current with _ | e <;> rcases hc' : c'.current with _ | e' <;>
    simp_all [closing, gists, Event.draft?]

/-- Cursors that differ in places do the same with a line, apart from places. -/
theorem Like.read {c c' : Cursor} (h : c.Like c') (line line' : Nat) (raw : List Char) :
    gists (c.read line raw).1 = gists (c'.read line' raw).1 ∧
      (c.read line raw).2.Like (c'.read line' raw).2 := by
  obtain ⟨hfocus, hcurrent⟩ := h
  have hclosing := Like.gists_closing ⟨hfocus, hcurrent⟩
  obtain ⟨focus, current⟩ := c
  obtain ⟨focus', current'⟩ := c'
  obtain rfl : focus = focus' := hfocus
  dsimp only at hcurrent
  rw [Cursor.read, Cursor.read]
  -- the kind of a line does not depend on where it stands, so both cursors do the same kind of move
  cases Line.ofRaw raw with
  | blank => exact ⟨hclosing, .refl idle⟩
  | comment => exact ⟨rfl, rfl, hcurrent⟩
  | malformed token => exact ⟨rfl, rfl, hcurrent⟩
  | unrecognized content => exact ⟨rfl, rfl, hcurrent⟩
  | keyword k text =>
    cases k with
    | id => exact ⟨hclosing, rfl, rfl⟩
    | context => exact ⟨hclosing, rfl, rfl⟩
    | plural => exact ⟨rfl, rfl, hcurrent⟩
    | value main =>
      rcases current with _ | e <;> rcases current' with _ | e' <;>
        simp only [Option.map_none, Option.map_some, reduceCtorEq, Option.some_inj,
          OpenEntry.draft, Draft.mk.injEq] at hcurrent
      · exact ⟨rfl, rfl, rfl⟩
      · cases main <;> exact ⟨rfl, rfl, by simp [keyword, OpenEntry.draft, hcurrent]⟩
  | continuation quoted text =>
    rcases current with _ | e <;> rcases current' with _ | e' <;>
      simp only [Option.map_none, Option.map_some, reduceCtorEq, Option.some_inj,
        OpenEntry.draft, Draft.mk.injEq] at hcurrent
    · cases focus <;> exact ⟨rfl, rfl, rfl⟩
    · obtain ⟨hkey, hvalue⟩ := hcurrent
      cases focus with
      | nothing => exact ⟨rfl, rfl, by simp [continuation, OpenEntry.draft, hkey, hvalue]⟩
      | ignored => exact ⟨rfl, rfl, by simp [continuation, OpenEntry.draft, hkey, hvalue]⟩
      | key => exact ⟨rfl, rfl, by simp [continuation, OpenEntry.draft, hkey, hvalue]⟩
      | value =>
        refine ⟨rfl, rfl, ?_⟩
        rcases hv : e.value with _ | v <;> rcases hv' : e'.value with _ | v' <;>
          simp_all [continuation, OpenEntry.draft]

/-- **Lines come to the same, apart from places, wherever they stand.** -/
theorem Like.gists_eventsFrom {c c' : Cursor} (h : c.Like c') (line line' : Nat)
    (lines : List (List Char)) :
    gists (c.eventsFrom line lines) = gists (c'.eventsFrom line' lines) := by
  induction lines generalizing c c' line line' with
  | nil => exact h.gists_closing
  | cons raw rest ih =>
    obtain ⟨hgists, hnext⟩ := h.read line line' raw
    rw [eventsFrom_cons, eventsFrom_cons, gists_append, gists_append, hgists, ih hnext]

end Cursor

/-! ### What a catalog says -/

/-- The language of the catalog of a text: that of the last header that declares one, and without
any that of the file. -/
def languageOf (file text : String) : String :=
  (lastLanguage? (drafts (events text))).getD (defaultLanguage file)

/-- The entries of the catalog of a text. -/
def entriesOf (file text : String) : LanguageEntries :=
  ((Reader.start file).absorbAll file (events text)).entries

/-- **A catalog holds one language**, that of its last header. -/
theorem languages_parse (file text : String) :
    (parse file text).languages =
      Dict.empty.insert (languageOf file text) (entriesOf file text) := by
  rw [parse_eq_absorb, Reader.result, Reader.language_absorbAll]
  rfl

/-- **The last event that stores a key decides** its entry. -/
theorem get?_entriesOf (file text key : String) :
    (entriesOf file text).get? key =
      (events text).reverse.findSome? (Event.entryFor? file key) := by
  rw [entriesOf, Reader.get?_absorbAll]
  exact Option.or_none

/-- An entry stands in the file it was read from. -/
theorem file_of_get?_entriesOf {file text key : String} {entry : CatalogEntry}
    (h : (entriesOf file text).get? key = some entry) : entry.location.file = file := by
  rw [get?_entriesOf] at h
  obtain ⟨ev, -, hev⟩ := List.exists_of_findSome?_eq_some h
  cases ev with
  | closed e =>
    obtain ⟨value, -, rfl⟩ := Option.map_eq_some_iff.1 hev
    rfl
  | finding d => simp [Event.entryFor?] at hev

theorem value_findSome?_entryFor? (file key : String) (es : List Event) :
    (es.reverse.findSome? (Event.entryFor? file key)).map CatalogEntry.value =
      lastValue? key (drafts es) := by
  induction es with
  | nil => rfl
  | cons ev es ih =>
    have hev : ([ev].findSome? (Event.entryFor? file key)).map CatalogEntry.value =
        lastValue? key (drafts [ev]) := by
      rw [List.findSome?_singleton, Event.value_entryFor?]
      cases ev <;> simp [Event.draft?, lastValue?]
    rw [List.reverse_cons, List.findSome?_append, Option.map_or, ih, hev, ← lastValue?_append,
      ← drafts_append, List.singleton_append]

theorem value_get?_entriesOf (file text key : String) :
    ((entriesOf file text).get? key).map CatalogEntry.value =
      lastValue? key (drafts (events text)) := by
  rw [get?_entriesOf, value_findSome?_entryFor?]

/-- **A key has an entry exactly when some entry of the text stores it.** -/
theorem get?_entriesOf_eq_none_iff {file text key : String} :
    (entriesOf file text).get? key = none ↔ key ∉ storedKeys text := by
  rw [storedKeys, ← lastValue?_eq_none_iff, ← value_get?_entriesOf file, Option.map_eq_none_iff]

/-- **A reading is a success** when every event is sound. -/
theorem success_parse (file text : String) :
    (parse file text).success = (events text).all Event.isSound := by
  rw [parse_eq_absorb, Reader.result, Reader.success_absorbAll]
  rfl

end Concord.Catalog
