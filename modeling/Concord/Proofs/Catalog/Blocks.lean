import Concord.Proofs.Catalog.Renumbered
import Concord.Proofs.Catalog.Reports

/-!
# Catalogs are read block by block

An empty line closes what is open, whatever came before it, and nothing else is remembered from one
line to the next. So what is read after an empty line is what would be read at the beginning of a
text, only further down (`events_append_blank`), and two texts with an empty line between them are
read as the two catalogs one after the other (`parse_append_blank`): a block that is malformed
changes nothing that is read from another one.

Further down means that the lines have larger numbers, `(· + n)`, and nothing else is different: as
one line is read in the same way under any other number, all lines are read in the same way further
down (`Cursor.eventsFrom_add`).
-/

namespace Concord

namespace Catalog

open Text

/-! ### Reading further down -/

/-- **Lines are read in the same way further down.** -/
theorem Cursor.eventsFrom_add (n : Nat) (c : Cursor) (line : Nat) (lines : List (List Char)) :
    (c.renumber (· + n)).eventsFrom (line + n) lines =
      (c.eventsFrom line lines).map (Event.renumber (· + n)) := by
  have hmono : StrictMono (· + n) := fun _ _ h => Nat.add_lt_add_right h n
  induction lines generalizing c line with
  | nil => exact closing_renumber (· + n) c
  | cons raw lines ih =>
    have hread : (c.renumber (· + n)).read (line + n) raw =
        ((c.read line raw).1.map (Event.renumber (· + n)),
          (c.read line raw).2.renumber (· + n)) :=
      read_renumber hmono c line raw
    rw [eventsFrom_cons, eventsFrom_cons, hread, List.map_append, ← ih, Nat.add_right_comm]

/-! ### What is read under other numbers -/

section Renumbered

variable (f : Nat → Nat) (ev : Event) (es : List Event)

theorem draft?_renumber : (ev.renumber f).draft? = ev.draft? := by
  cases ev with
  | closed e =>
    obtain ⟨key, keyRange, _ | v⟩ := e <;> rfl
  | finding d => rfl

theorem drafts_map_renumber : drafts (es.map (Event.renumber f)) = drafts es := by
  rw [drafts, List.filterMap_map, drafts]
  exact List.filterMap_congr fun ev _ => draft?_renumber f ev

theorem isSound_renumber : (ev.renumber f).isSound = ev.isSound := by
  rw [Event.isSound, draft?_renumber, Event.isSound]

theorem fault?_renumber : (ev.renumber f).fault? = ev.fault?.map (Diagnostic.renumber f) := by
  cases ev with
  | finding d => rfl
  | closed e =>
    rcases e with ⟨_ | ⟨k, ks⟩, range, _ | ⟨text, textRange⟩⟩
    · rfl
    · rfl
    · rfl
    · by_cases htrim : trim text = [] <;>
        simp [Event.renumber, OpenEntry.renumber, Event.fault?, OpenEntry.fault?, htrim,
          Diagnostic.renumber]

theorem faults_map_renumber :
    faults (es.map (Event.renumber f)) = (faults es).map (Diagnostic.renumber f) := by
  rw [faults, List.filterMap_map, faults, List.map_filterMap]
  exact List.filterMap_congr fun ev _ => fault?_renumber f ev

theorem entryFor?_renumber (file key : String) :
    (ev.renumber f).entryFor? file key = (ev.entryFor? file key).map (CatalogEntry.renumber f) := by
  cases ev with
  | finding d => rfl
  | closed e =>
    have hdraft : (e.renumber f).draft = e.draft := Option.some.inj (draft?_renumber f (.closed e))
    simp only [Event.renumber, Event.entryFor?, hdraft, Option.map_map]
    rfl

theorem findSome?_map_renumber (file key : String) :
    (es.map (Event.renumber f)).findSome? (Event.entryFor? file key) =
      (es.findSome? (Event.entryFor? file key)).map (CatalogEntry.renumber f) := by
  rw [List.findSome?_map, List.map_findSome?]
  congr 1
  exact funext fun ev => entryFor?_renumber f ev file key

end Renumbered

/-! ### Two texts with an empty line between them -/

/-- The language that the last header of a text declares, if one does. -/
def declaredLanguage? (text : String) : Option String := lastLanguage? (drafts (events text))

/-- **What comes after an empty line is read as at the beginning of a text**, further down. -/
theorem events_append_blank (above below : String) :
    events (above ++ "\n\n" ++ below) =
      events above ++ (events below).map (Event.renumber (· + (above.toList.count '\n' + 2))) := by
  have hlines : lines (above ++ "\n\n" ++ below).toList =
      lines above.toList ++ [] :: lines below.toList := by
    rw [String.toList_append, String.toList_append, List.append_assoc]
    -- the first line break ends the last line above it, the second an empty line
    change lines (above.toList ++ '\n' :: ([] ++ '\n' :: below.toList)) = _
    rw [lines_append, lines_append]
    rfl
  have hdown := Cursor.eventsFrom_add (above.toList.count '\n' + 2) .idle 0 (lines below.toList)
  rw [Nat.zero_add] at hdown
  rw [events, hlines, Cursor.eventsFrom_append, Cursor.eventsFrom_blank, ← List.append_assoc,
    length_lines, lineCount, Nat.zero_add, events, events, ← hdown]
  rfl

/-- **Catalogs are read block by block.** Where an empty line stands between two texts, the language
is the one that the second declares, and without any that of the first; a key has the entry of the
second, further down, and if it has none there, that of the first; the reading is a success if both
are; and, repeats apart, what is reported of the first is followed by what is reported of the
second, further down. -/
theorem parse_append_blank (file above below : String) :
    ∃ language entries entries₁ entries₂,
      (parse file above).languages = Dict.empty.insert language entries₁ ∧
      (parse file below).languages =
        Dict.empty.insert ((declaredLanguage? below).getD (defaultLanguage file)) entries₂ ∧
      (parse file (above ++ "\n\n" ++ below)).languages =
        Dict.empty.insert ((declaredLanguage? below).getD language) entries ∧
      (∀ key, entries.get? key =
        ((entries₂.get? key).map (CatalogEntry.renumber (· + (above.toList.count '\n' + 2)))).or
          (entries₁.get? key)) ∧
      (parse file (above ++ "\n\n" ++ below)).success =
        ((parse file above).success && (parse file below).success) ∧
      (parse file (above ++ "\n\n" ++ below)).diagnostics.filter isFault =
        (parse file above).diagnostics.filter isFault ++
          ((parse file below).diagnostics.filter isFault).map
            (Diagnostic.renumber (· + (above.toList.count '\n' + 2))) := by
  have hevents := events_append_blank above below
  refine ⟨languageOf file above, entriesOf file (above ++ "\n\n" ++ below), entriesOf file above,
    entriesOf file below, languages_parse file above, languages_parse file below, ?_, fun key => ?_,
    ?_, ?_⟩
  · rw [languages_parse, languageOf, hevents, drafts_append, drafts_map_renumber,
      lastLanguage?_append, declaredLanguage?, languageOf, Option.getD_or]
  · rw [get?_entriesOf, hevents, List.reverse_append, List.findSome?_append, ← List.map_reverse,
      findSome?_map_renumber, get?_entriesOf, get?_entriesOf]
  · rw [success_parse, success_parse, success_parse, hevents, List.all_append, List.all_map]
    congr 2
    exact funext (isSound_renumber _)
  · rw [filter_diagnostics_parse, filter_diagnostics_parse, filter_diagnostics_parse, hevents,
      faults_append, faults_map_renumber]

end Catalog

end Concord
