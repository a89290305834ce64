import Concord.Proofs.Catalog.KeySpan
import Concord.Rename
import Mathlib.Data.List.ReduceOption

/-!
# Renaming an entry of a catalog

The edit of a rename puts a quoted string in the place of everything from the first quote of a key
to its last one. What is left is a text with one line instead of the lines of the key; it is read
like the text before, but for the key of that entry and for what was found between its lines
(`exists_renamed`). This holds of any entry of any text. When no other entry stores the old key, the
catalog is the one before with the key renamed (`parse_rename`).
-/

namespace Concord.Catalog

open Text

/-- The events of lines of which one opens an entry. -/
theorem eventsFrom_opener {opener text : List Char} (h : Line.ofRaw opener = .keyword .id text)
    (c : Cursor) (line : Nat) (before after : List (List Char)) :
    c.eventsFrom line (before ++ opener :: after) =
      (c.readAll line before).1 ++ ((c.readAll line before).2.closing ++
        (Cursor.mk .key (some ⟨text, quoteRange (line + before.length) opener, none⟩)).eventsFrom
          (line + before.length + 1) after) := by
  have hread : ∀ c' : Cursor, c'.read (line + before.length) opener =
      (c'.closing, ⟨.key, some ⟨text, quoteRange (line + before.length) opener, none⟩⟩) := by
    intro c'
    rw [Cursor.read, h]
    rfl
  rw [Cursor.eventsFrom_append, Cursor.eventsFrom_cons, hread]

/-- The edit of a rename, where the key stands after `pre` and before `post`. -/
theorem rename_between {text : String} {before after : List (List Char)}
    {pre post : List Char} {range : Range} (piece : List Char) (new : String)
    (hbefore : ∀ x ∈ before, '\n' ∉ x) (hpre : '\n' ∉ pre) (hpost : '\n' ∉ post)
    (hafter : ∀ x ∈ after, '\n' ∉ x)
    (htext : text.toList = (above before ++ pre) ++ (piece ++ (post ++ below after)))
    (hstart : offsetAt? text.toList range.start = some (bytes (above before ++ pre)))
    (hstop : offsetAt? text.toList range.stop = some (bytes (above before ++ pre ++ piece))) :
    ∃ edited, applyEdits text.toList [⟨range, Rename.catalogText new⟩] = .ok edited ∧
      lines edited = before ++ (pre ++ (Quoted.quote new.toList ++ post)) :: after := by
  have hopener : '\n' ∉ pre ++ (Quoted.quote new.toList ++ post) := by
    simp [hpre, hpost, newline_not_mem_quote]
  have hlines := lines_above_append_below hbefore hopener hafter
  rw [htext] at hstart hstop ⊢
  refine ⟨_, applyEdits_singleton _ hstart hstop, ?_⟩
  rw [← hlines]
  simp only [Rename.catalogText, String.toList_ofList, List.append_assoc]

/-- The edit of a rename, where the key stands on one line. -/
theorem rename_oneLine {text : String} {before after : List (List Char)}
    {pre quoted post : List Char}
    (hlines : lines text.toList = before ++ (pre ++ (quoted ++ post)) :: after) (new : String) :
    ∃ edited, applyEdits text.toList [⟨⟨⟨before.length, units16 pre⟩,
        ⟨before.length, units16 (pre ++ quoted)⟩⟩, Rename.catalogText new⟩] = .ok edited ∧
      lines edited = before ++ (pre ++ (Quoted.quote new.toList ++ post)) :: after := by
  obtain ⟨hbefore, hline, hafter⟩ := newline_not_mem_of_lines hlines
  rw [List.mem_append, List.mem_append, not_or, not_or] at hline
  obtain ⟨hpre, -, hpost⟩ := hline
  have hlines' : lines text.toList = before ++ ((pre ++ quoted) ++ post) :: after := by
    rw [hlines, List.append_assoc]
  refine rename_between quoted new hbefore hpre hpost hafter ?_ (offsetAt?_of_lines hlines) ?_
  · rw [eq_of_lines hlines]
    simp only [List.append_assoc]
  · rw [List.append_assoc]
    exact offsetAt?_of_lines hlines'

/-- The edit of a rename, where the key ends on a later line than it begins: what stands between is
replaced with it. -/
theorem rename_lines {text : String} {before inner after : List (List Char)}
    {pre quoted post lead quoted' post' : List Char}
    (hlines : lines text.toList = before ++ (pre ++ (quoted ++ post)) ::
      (inner ++ (lead ++ (quoted' ++ post')) :: after)) (new : String) :
    ∃ edited, applyEdits text.toList [⟨⟨⟨before.length, units16 pre⟩,
        ⟨before.length + 1 + inner.length, units16 (lead ++ quoted')⟩⟩, Rename.catalogText new⟩] =
          .ok edited ∧
      lines edited = before ++ (pre ++ (Quoted.quote new.toList ++ post')) :: after := by
  -- the same lines, seen from the last line of the key
  have hlines' : lines text.toList = (before ++ (pre ++ (quoted ++ post)) :: inner) ++
      ((lead ++ quoted') ++ post') :: after := by
    rw [hlines, List.append_assoc before, List.cons_append, List.append_assoc lead]
  obtain ⟨hbefore, hfirst, -⟩ := newline_not_mem_of_lines hlines
  obtain ⟨-, hlast, hafter⟩ := newline_not_mem_of_lines hlines'
  rw [List.mem_append, not_or] at hfirst hlast
  have hhead : above (before ++ (pre ++ (quoted ++ post)) :: inner) ++ (lead ++ quoted') =
      above before ++ pre ++ (quoted ++ post ++ '\n' :: above inner ++ lead ++ quoted') := by
    simp
  have hlength : before.length + 1 + inner.length =
      (before ++ (pre ++ (quoted ++ post)) :: inner).length := by
    rw [List.length_append, List.length_cons]
    omega
  refine rename_between (quoted ++ post ++ '\n' :: above inner ++ lead ++ quoted') new hbefore
    hfirst.1 hlast.2 hafter ?_ (offsetAt?_of_lines hlines) ?_
  · rw [eq_of_lines hlines', List.append_assoc (lead ++ quoted'), ← List.append_assoc (above _),
      hhead]
    simp only [List.append_assoc]
  · rw [hlength, ← hhead]
    exact offsetAt?_of_lines hlines'

/-! ### The entry with its new key -/

/-- What a text comes to in which one line stands for the lines of a key, given what the lines after
the key came to. -/
theorem gists_renamed {edited opener new : List Char} {before after : List (List Char)}
    (hlines : lines edited = before ++ opener :: after)
    (hopener : Line.ofRaw opener = .keyword .id new) {e b : OpenEntry} {line : Nat}
    {found later : List Event} (hvalue : e.value = none) (hends : goesOn after = false)
    (hevents : (Cursor.mk .key (some e)).eventsFrom line after = found ++ .closed b :: later)
    (hfound : drafts found = []) :
    gists (events (String.ofList edited)) =
      gists ((Cursor.idle.readAll 0 before).1 ++
        ((Cursor.idle.readAll 0 before).2.closing ++ found)) ++
      some ⟨new, b.draft.value⟩ :: gists later := by
  obtain ⟨-, -, hrekeyed⟩ := Cursor.eventsFrom_rekey (fun _ => hends) hevents hfound new
  -- after the new line the cursor differs in places only from one that carries the new key along
  have hlike : ∀ range, Cursor.Like (Cursor.mk .key (some ⟨new, range, none⟩))
      (Cursor.mk .key (some { e with key := new })) := by
    intro range
    exact ⟨rfl, by simp [OpenEntry.draft, hvalue]⟩
  rw [events, String.toList_ofList, hlines, eventsFrom_opener hopener, gists_append, gists_append,
    (hlike _).gists_eventsFrom _ line, hrekeyed]
  simp [gists, Event.draft?, OpenEntry.draft]

/-- **The edit of a rename changes the key of its entry and nothing else.** Whichever entry of a
text is edited, the edit succeeds and the new text is read like the old one, with the new key in its
place; at most some findings between the lines of the old key are gone. -/
theorem exists_renamed {text : String} {before after : List Event} {b : OpenEntry}
    (h : events text = before ++ .closed b :: after) (new : String) :
    ∃ edited before', applyEdits text.toList [⟨b.keyRange, Rename.catalogText new⟩] = .ok edited ∧
      drafts before' = drafts before ∧ (before.all Event.isSound → before'.all Event.isSound) ∧
      gists (events (String.ofList edited)) =
        gists before' ++ some ⟨new.toList, b.draft.value⟩ :: gists after := by
  rcases exists_opening h with ⟨hsome, -⟩ | ⟨above, opener, rest, key, found, hlines, hopener, rfl,
    hfound, hevents⟩
  · simp [Cursor.idle] at hsome
  obtain ⟨pre, quoted, post, rfl, hrange, hpost, hexchange⟩ := exists_quoted_of_id hopener
  rw [Nat.zero_add, hrange] at hevents
  by_cases hgoes : goesOn rest
  · -- the key ends on a later line, and what was found up to there is gone with the lines
    obtain ⟨inner, last, rest, quoted', text', e, skipped, found, rfl, hlast, hends, hvalue, hkey,
      rfl, hfound', hevents'⟩ := exists_keyEnd hgoes (Nat.lt_succ_self _) hevents hfound
    obtain ⟨lead, post', rfl, hrange', hpost'⟩ := exists_quoted_of_continuation hlast
    obtain ⟨-, hb, -⟩ := Cursor.eventsFrom_rekey (fun _ => hends) hevents' hfound' []
    obtain ⟨edited, hedited, hedited'⟩ := rename_lines hlines new
    refine ⟨edited, _, ?_, ?_, ?_,
      gists_renamed hedited' (hexchange _ _ hpost') hvalue hends hevents' hfound'⟩
    · rw [hb, hkey, hrange']
      exact hedited
    · simp only [drafts_append, hfound', hfound]
      simp
    · simp only [List.all_append, Bool.and_eq_true]
      exact fun ⟨⟨habove, hclosing⟩, _, hlater⟩ => ⟨habove, hclosing, hlater⟩
  · -- the key ends on the line that opens the entry
    obtain ⟨-, hb, -⟩ :=
      Cursor.eventsFrom_rekey (fun _ => Bool.eq_false_iff.2 hgoes) hevents hfound []
    obtain ⟨edited, hedited, hedited'⟩ := rename_oneLine hlines new
    refine ⟨edited, _, ?_, ?_, ?_,
      gists_renamed hedited' (hexchange _ _ hpost) rfl (Bool.eq_false_iff.2 hgoes) hevents hfound⟩
    · rw [hb]
      exact hedited
    · simp
    · simp

/-! ### The catalog with its new key -/

theorem valueFor?_of_stored {d : Draft} {k v : String} (h : d.stored? = some (k, v))
    (key : String) : d.valueFor? key = if key = k then some v else none := by
  rw [Draft.valueFor?, h, Option.filter_some]
  by_cases hkey : key = k
  · simp [hkey]
  · simp [hkey, Ne.symm hkey]

theorem stored?_rekey {d : Draft} {old v new : String} (h : d.stored? = some (old, v))
    (hnew : new ≠ "") : (⟨new.toList, d.value⟩ : Draft).stored? = some (new, v) := by
  obtain ⟨c, cs, hcs⟩ : ∃ c cs, new.toList = c :: cs :=
    List.exists_cons_of_ne_nil fun h => hnew (String.toList_eq_nil_iff.1 h)
  obtain ⟨_ | ⟨k, ks⟩, _ | text⟩ := d
  · simp [Draft.stored?] at h
  · simp [Draft.stored?] at h
  · simp [Draft.stored?] at h
  · simp only [Draft.stored?, hcs] at h ⊢
    split at h
    · simp at h
    · next htext =>
      rw [if_neg htext, ← hcs, String.ofList_toList]
      simp_all

theorem language?_of_stored {d : Draft} {p : String × String} (h : d.stored? = some p) :
    d.language? = none := by
  obtain ⟨_ | ⟨k, ks⟩, value⟩ := d
  · simp [Draft.stored?] at h
  · rfl

/-- **The last entry that stores a key, renamed.** The edit succeeds, and what the text says changes
in one draft, after which the old key is not stored again. -/
theorem exists_renamed_entry {file text old new : String} {entry : CatalogEntry}
    (hold : (entriesOf file text).get? old = some entry) (hnew : new ≠ "") :
    ∃ edited before d after,
      applyEdits text.toList [⟨entry.location.range, Rename.catalogText new⟩] = .ok edited ∧
      drafts (events text) = before ++ d :: after ∧
      drafts (events (String.ofList edited)) = before ++ ⟨new.toList, d.value⟩ :: after ∧
      d.stored? = some (old, entry.value) ∧ old ∉ storedIn after ∧
      ((parse file text).success → (parse file (String.ofList edited)).success) := by
  rw [get?_entriesOf, List.findSome?_eq_some_iff] at hold
  obtain ⟨later, ev, earlier, hevents, hentry, hlater⟩ := hold
  cases ev with
  | finding d => simp [Event.entryFor?] at hentry
  | closed b =>
  obtain ⟨value, hvalue, rfl⟩ := Option.map_eq_some_iff.1 hentry
  have hstored : b.draft.stored? = some (old, value) := by
    obtain ⟨⟨k, v⟩, hp, rfl⟩ := Option.map_eq_some_iff.1 hvalue
    rw [Option.filter_eq_some_iff] at hp
    rw [hp.1, show k = old from of_decide_eq_true hp.2]
  have hsplit : events text = earlier.reverse ++ .closed b :: later.reverse := by
    rw [← List.reverse_reverse (events text), hevents]
    simp
  obtain ⟨edited, before, hedited, hbefore, hsound, hgists⟩ := exists_renamed hsplit new
  have hrekeyed := stored?_rekey hstored hnew
  refine ⟨edited, drafts earlier.reverse, b.draft, drafts later.reverse, hedited, ?_, ?_, hstored,
    ?_, ?_⟩
  · rw [hsplit, drafts_append, drafts_closed]
  · rw [drafts_eq_reduceOption, hgists, ← hbefore, drafts_eq_reduceOption before,
      drafts_eq_reduceOption later.reverse, List.reduceOption_append]
    rfl
  · rw [← lastValue?_eq_none_iff, ← value_findSome?_entryFor? file, List.reverse_reverse,
      List.findSome?_eq_none_iff.2 hlater]
    rfl
  · rw [success_parse, success_parse, hsplit, all_isSound_eq (events _), hgists, List.all_append,
      List.all_append, List.all_cons, List.all_cons, ← all_isSound_eq, ← all_isSound_eq]
    simp only [Bool.and_eq_true]
    rintro ⟨hearlier, _, hlater⟩
    exact ⟨hsound hearlier, by simp [Draft.isSound, hrekeyed], hlater⟩

theorem lastValue?_cons_middle (key : String) (before : List Draft) (d : Draft)
    (after : List Draft) : lastValue? key (before ++ d :: after) =
      (lastValue? key after).or ((d.valueFor? key).or (lastValue? key before)) := by
  have hd : lastValue? key [d] = d.valueFor? key := List.findSome?_singleton
  rw [← List.singleton_append, lastValue?_append, lastValue?_append, hd, Option.or_assoc]

/-- Renaming the last draft that stores a key changes no other key. -/
theorem lastValue?_rename {before after : List Draft} {d : Draft} {old v new : String}
    (hd : d.stored? = some (old, v)) (hnew : new ≠ "") {key : String} (hkey : key ≠ new)
    (hkey' : key ≠ old) :
    lastValue? key (before ++ ⟨new.toList, d.value⟩ :: after) =
      lastValue? key (before ++ d :: after) := by
  rw [lastValue?_cons_middle, lastValue?_cons_middle, valueFor?_of_stored hd,
    valueFor?_of_stored (stored?_rekey hd hnew), if_neg hkey, if_neg hkey']

/-- Renaming the last draft that stores a key gives its value to the new key, if that is free. -/
theorem lastValue?_rename_new {before after : List Draft} {d : Draft} {old v new : String}
    (hd : d.stored? = some (old, v)) (hnew : new ≠ "")
    (hfree : lastValue? new (before ++ d :: after) = none) :
    lastValue? new (before ++ ⟨new.toList, d.value⟩ :: after) = some v := by
  rw [lastValue?_cons_middle, Option.or_eq_none_iff] at hfree
  rw [lastValue?_cons_middle, valueFor?_of_stored (stored?_rekey hd hnew), if_pos rfl, hfree.1]
  rfl

/-- What is stored after a rename under the old key is what was stored under it before. -/
theorem lastValue?_rename_old {before after : List Draft} {d : Draft} {old v new : String}
    (hd : d.stored? = some (old, v)) (hnew : new ≠ "") (hne : old ≠ new)
    (hafter : old ∉ storedIn after) :
    lastValue? old (before ++ ⟨new.toList, d.value⟩ :: after) = lastValue? old before := by
  rw [lastValue?_cons_middle, valueFor?_of_stored (stored?_rekey hd hnew), if_neg hne,
    lastValue?_eq_none_iff.2 hafter]
  rfl

/-- How many entries store a key, seen from the last of them. -/
theorem count_storedIn {before after : List Draft} {d : Draft} {old v : String}
    (hd : d.stored? = some (old, v)) (hafter : old ∉ storedIn after) :
    (storedIn (before ++ d :: after)).count old = (storedIn before).count old + 1 := by
  have hsplit : storedIn (before ++ d :: after) = storedIn before ++ old :: storedIn after := by
    simp [storedIn, hd]
  rw [hsplit, List.count_append, List.count_cons_self, List.count_eq_zero.2 hafter]

/-- **Renaming the last entry that stores a key.** The edit succeeds; the new key, if it was free,
then stands for what the old one stood for, and the old key is gone exactly when no other entry
stored it. -/
theorem parse_rename_last {file text old new : String} {entry : CatalogEntry}
    (hold : (entriesOf file text).get? old = some entry) (hnew : new ≠ "")
    (hfree : (entriesOf file text).get? new = none) :
    ∃ edited, applyEdits text.toList [⟨entry.location.range, Rename.catalogText new⟩] = .ok edited ∧
      languageOf file (String.ofList edited) = languageOf file text ∧
      ((entriesOf file (String.ofList edited)).get? new).map CatalogEntry.value = some entry.value ∧
      ((entriesOf file (String.ofList edited)).get? old = none ↔ (storedKeys text).count old = 1) ∧
      (∀ key, key ≠ new → key ≠ old →
        ((entriesOf file (String.ofList edited)).get? key).map CatalogEntry.value =
          ((entriesOf file text).get? key).map CatalogEntry.value) ∧
      ((parse file text).success → (parse file (String.ofList edited)).success) := by
  obtain ⟨edited, before, d, after, hedited, hdrafts, hdrafts', hd, hafter, hsuccess⟩ :=
    exists_renamed_entry hold hnew
  have hne : old ≠ new := by
    rintro rfl
    rw [hold] at hfree
    simp at hfree
  refine ⟨edited, hedited, ?_, ?_, ?_, fun key hkey hkey' => ?_, hsuccess⟩
  · have hd' := language?_of_stored (stored?_rekey hd hnew)
    rw [languageOf, languageOf, hdrafts, hdrafts', ← List.singleton_append, lastLanguage?_append,
      lastLanguage?_append, ← List.singleton_append, lastLanguage?_append, lastLanguage?_append]
    simp [lastLanguage?, hd', language?_of_stored hd]
  · -- the new key stands for the old value, as no other draft stores it
    rw [value_get?_entriesOf, hdrafts']
    refine lastValue?_rename_new hd hnew ?_
    rw [← hdrafts, ← value_get?_entriesOf file, hfree]
    rfl
  · rw [← Option.map_eq_none_iff (f := CatalogEntry.value), value_get?_entriesOf, hdrafts',
      lastValue?_rename_old hd hnew hne hafter, lastValue?_eq_none_iff, ← List.count_eq_zero,
      storedKeys, hdrafts, count_storedIn hd hafter]
    omega
  · rw [value_get?_entriesOf, value_get?_entriesOf, hdrafts', hdrafts,
      lastValue?_rename hd hnew hkey hkey']

/-- **Renaming a key that one entry stores renames exactly that entry.** In any text, with whatever
lines around and inside the entry, the edit succeeds; the new catalog has the same language, the new
key stands for what the old one stood for, the old key is gone, every other key is as before, and a
reading that was a success still is one. -/
theorem parse_rename {file text old new language : String} {entries : LanguageEntries}
    {entry : CatalogEntry}
    (hlanguage : (parse file text).languages.get? language = some entries)
    (hold : entries.get? old = some entry) (honce : (storedKeys text).count old = 1)
    (hnew : new ≠ "") (hfree : entries.get? new = none) :
    ∃ edited entries',
      applyEdits text.toList [⟨entry.location.range, Rename.catalogText new⟩] = .ok edited ∧
      (parse file (String.ofList edited)).languages = Dict.empty.insert language entries' ∧
      (∀ key, (entries'.get? key).map CatalogEntry.value =
        if key = new then some entry.value
        else if key = old then none
        else (entries.get? key).map CatalogEntry.value) ∧
      ((parse file text).success → (parse file (String.ofList edited)).success) := by
  obtain ⟨rfl, rfl⟩ : language = languageOf file text ∧ entriesOf file text = entries := by
    rw [languages_parse, Dict.get?_insert] at hlanguage
    split at hlanguage
    · next h => exact ⟨h, Option.some_inj.1 hlanguage⟩
    · simp at hlanguage
  obtain ⟨edited, hedited, hlanguage', hvalue, hgone, hother, hsuccess⟩ :=
    parse_rename_last hold hnew hfree
  refine ⟨edited, entriesOf file (String.ofList edited), hedited, ?_, fun key => ?_, hsuccess⟩
  · rw [languages_parse, hlanguage']
  · split
    · next hkey => rw [hkey, hvalue]
    · next hkey =>
      split
      · next hkey' => rw [hkey', hgone.2 honce, Option.map_none]
      · next hkey' => exact hother key hkey hkey'

/-- A catalog with a key on several lines, between which stand a comment and a line of no
meaning. -/
def sampleText : String :=
  "msgid \"\"\nmsgstr \"Language: ja\\n\"\n\nmsgid \"gre\"\r\n# note\r\n?\r\n\"et\" \r\n" ++
  "msgstr \"Hi\"\r\n\nmsgid \"bye\"\nmsgstr \"Bye\"\n"

/-- The entry of that key. -/
def sampleEntry : CatalogEntry := ⟨"Hi", ⟨"de.po", ⟨⟨3, 6⟩, ⟨6, 4⟩⟩⟩⟩

/-- The statement above speaks of this key and a new one that has to be escaped. -/
theorem parse_rename_sample :
    (entriesOf "de.po" sampleText).get? "greet" = some sampleEntry ∧
    (storedKeys sampleText).count "greet" = 1 ∧
    ∃ edited entries',
      applyEdits sampleText.toList [⟨⟨⟨3, 6⟩, ⟨6, 4⟩⟩, Rename.catalogText "say \"hi\""⟩] =
        .ok edited ∧
      (parse "de.po" (String.ofList edited)).languages = Dict.empty.insert "ja" entries' ∧
      (∀ key, (entries'.get? key).map CatalogEntry.value =
        if key = "say \"hi\"" then some "Hi"
        else if key = "greet" then none
        else ((entriesOf "de.po" sampleText).get? key).map CatalogEntry.value) ∧
      ((parse "de.po" sampleText).success → (parse "de.po" (String.ofList edited)).success) := by
  have hlanguage : (parse "de.po" sampleText).languages.get? "ja" =
      some (entriesOf "de.po" sampleText) := by decide +kernel
  have hold : (entriesOf "de.po" sampleText).get? "greet" = some sampleEntry := by decide +kernel
  have honce : (storedKeys sampleText).count "greet" = 1 := by decide +kernel
  exact ⟨hold, honce, parse_rename hlanguage hold honce (by decide) (by decide +kernel)⟩

end Concord.Catalog
