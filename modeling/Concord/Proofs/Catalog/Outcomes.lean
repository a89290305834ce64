import Concord.Proofs.Catalog.KeyLines
import Concord.Proofs.Catalog.Reports
import Concord.Proofs.Dictionaries

/-!
# What becomes of the entries of a text

Every line that opens an entry leads to exactly one outcome, wherever the entry is closed and
whatever stands between its lines: it is stored under a new key, or it is reported as a duplicate,
or its value is reported as missing or as empty, or its key is empty and it is a header
(`parse_accounts`).

Two counts meet in the entries that are closed. On the side of the text their keys are those that
its lines open (`keys_closedEntries_eventsFrom`); on the side of the catalog each of them that is
not a header adds one to what is stored or reported (`Reader.settled_finish`).
-/

namespace Concord.Catalog

open Text

/-! ### The entries that lines open -/

/-- Whether a line opens an entry. -/
def opensEntry (raw : List Char) : Bool :=
  match Line.ofRaw raw with
  | .keyword .id _ => true
  | _ => false

/-- What some lines add to a key that stands on the line before them. -/
def keyFrom : List (List Char) → List Char
  | [] => []
  | raw :: rest =>
    match Line.ofRaw raw with
    | .continuation _ text => text ++ keyFrom rest
    | .comment | .malformed _ | .unrecognized _ => keyFrom rest
    | .blank | .keyword _ _ => []

/-- The whole keys of the entries that some lines open. -/
def openedKeys : List (List Char) → List (List Char)
  | [] => []
  | raw :: rest =>
    match Line.ofRaw raw with
    | .keyword .id text => (text ++ keyFrom rest) :: openedKeys rest
    | _ => openedKeys rest

theorem length_openedKeys (ls : List (List Char)) :
    (openedKeys ls).length = ls.countP opensEntry := by
  induction ls with
  | nil => rfl
  | cons raw ls ih =>
    rw [List.countP_cons, ← ih, openedKeys, opensEntry]
    split <;> rfl

/-- The key that the open entry, if there is one, has after some more lines. -/
def Cursor.keyAfter (c : Cursor) (ls : List (List Char)) : List (List Char) :=
  match c.focus, c.current with
  | _, none => []
  | .key, some e => [e.key ++ keyFrom ls]
  | _, some e => [e.key]

theorem Cursor.keyAfter_congr (c : Cursor) {ls ls' : List (List Char)}
    (h : keyFrom ls = keyFrom ls') : c.keyAfter ls = c.keyAfter ls' := by
  obtain ⟨focus, _ | e⟩ := c <;> cases focus <;> simp [keyAfter, h]

/-- Lines that do not go on with a key leave it as it is. -/
theorem Cursor.keyAfter_of_keyFrom_eq_nil (c : Cursor) {ls : List (List Char)}
    (h : keyFrom ls = []) : c.keyAfter ls = (closedEntries c.closing).map OpenEntry.key := by
  obtain ⟨focus, _ | e⟩ := c <;> cases focus <;> simp [keyAfter, closedEntries_closing, h]

/-- **The keys of the entries that are closed** are that of the open entry and those that the lines
open, in order. -/
theorem keys_closedEntries_eventsFrom (c : Cursor) (line : Nat) (ls : List (List Char)) :
    (closedEntries (c.eventsFrom line ls)).map OpenEntry.key = c.keyAfter ls ++ openedKeys ls := by
  induction ls generalizing c line with
  | nil => rw [c.keyAfter_of_keyFrom_eq_nil rfl, Cursor.eventsFrom_nil, openedKeys, List.append_nil]
  | cons raw ls ih =>
    rw [Cursor.eventsFrom_cons, closedEntries_append, List.map_append, ih, Cursor.read, openedKeys]
    have hkeeps : keyFrom (raw :: ls) = keyFrom ls → c.keyAfter (raw :: ls) = c.keyAfter ls :=
      c.keyAfter_congr
    have hends : keyFrom (raw :: ls) = [] →
        c.keyAfter (raw :: ls) = (closedEntries c.closing).map OpenEntry.key :=
      c.keyAfter_of_keyFrom_eq_nil
    rw [keyFrom] at hkeeps hends
    cases hraw : Line.ofRaw raw with
    | blank =>
      rw [hends (by rw [hraw])]
      rfl
    | comment =>
      rw [hkeeps (by rw [hraw])]
      rfl
    | malformed token =>
      rw [hkeeps (by rw [hraw])]
      rfl
    | unrecognized content =>
      rw [hkeeps (by rw [hraw])]
      rfl
    | keyword k text =>
      rw [hends (by rw [hraw])]
      cases k with
      | id => rfl
      | context => rfl
      | plural => obtain ⟨focus, _ | e⟩ := c <;> rfl
      | value main => obtain ⟨focus, _ | e⟩ := c <;> cases main <;> rfl
    | continuation quoted text =>
      -- only where a key is going on does the text become a part of it
      obtain ⟨focus, _ | e⟩ := c
      · cases focus <;> rfl
      · cases focus with
        | nothing => rfl
        | ignored => rfl
        | value => rfl
        | key =>
          have hkey : (⟨.key, some e⟩ : Cursor).keyAfter (raw :: ls) =
              [e.key ++ text ++ keyFrom ls] := by
            simp only [Cursor.keyAfter, keyFrom, hraw, List.append_assoc]
          rw [hkey]
          rfl

/-! ### What is stored and reported -/

/-- How many findings have a given severity and rule. -/
def reported (severity : Severity) (rule : Rule) (ds : List Diagnostic) : Nat :=
  ds.countP fun d => d.severity = severity && d.rule = rule

@[simp] theorem reported_append (severity : Severity) (rule : Rule) (ds ds' : List Diagnostic) :
    reported severity rule (ds ++ ds') = reported severity rule ds + reported severity rule ds' :=
  List.countP_append

namespace Reader

/-- How many entries have had an outcome, headers apart: they were stored under a key of their own,
or they are reported. -/
def settled (r : Reader) : Nat :=
  r.entries.size + reported .warning .duplicateKey r.diagnostics +
    reported .error .missingValue r.diagnostics + reported .warning .emptyValue r.diagnostics

variable (r : Reader) (file : String)

theorem settled_store (key : String) (range : Range) (value : List Char) :
    (r.store file key range value).settled = r.settled + 1 := by
  cases h : r.entries.contains key
  · simp [settled, store, h, Dict.size_insert]
    omega
  · simp [settled, store, h, Dict.size_insert, report, reported]
    omega

/-- **A closed entry has one outcome**, unless it is a header. -/
theorem settled_finish (e : OpenEntry) :
    (r.finish file e).settled = r.settled + if e.key = [] then 0 else 1 := by
  rcases e with ⟨_ | ⟨k, ks⟩, range, _ | ⟨text, textRange⟩⟩
  · simp only [finish]
    split <;> rfl
  · simp only [finish]
    split <;> rfl
  · simp [finish, fail, report, settled, reported]
    omega
  · simp only [finish]
    split
    · simp [fail, report, settled, reported]
      omega
    · rw [settled_store, if_neg (List.cons_ne_nil k ks)]

/-- A finding about a line is no outcome of an entry. -/
theorem settled_finding {d : Diagnostic} (h : isLineRule d.rule) :
    (r.absorb file (.finding d)).settled = r.settled := by
  cases hrule : d.rule <;> simp_all [isLineRule, absorb, report, settled, reported]

/-- **All closed entries but the headers have had an outcome.** -/
theorem settled_absorbAll {es : List Event} (h : ∀ d, .finding d ∈ es → isLineRule d.rule) :
    (r.absorbAll file es).settled = r.settled + (closedEntries es).countP (·.key ≠ []) := by
  induction es generalizing r with
  | nil => rfl
  | cons ev es ih =>
    rw [absorbAll_cons, ih _ fun d hd => h d (List.mem_cons_of_mem _ hd)]
    cases ev with
    | finding d =>
      rw [settled_finding r file (h d List.mem_cons_self)]
      rfl
    | closed e =>
      have hcons : closedEntries (.closed e :: es) = e :: closedEntries es := rfl
      rw [absorb, settled_finish, hcons, List.countP_cons]
      by_cases hkey : e.key = [] <;> simp [hkey]
      omega

end Reader

/-! ### The outcomes of a text -/

theorem of_stored?_eq_some {d : Draft} {key value : String} (h : d.stored? = some (key, value)) :
    key ≠ "" ∧ trim value.toList ≠ [] := by
  obtain ⟨_ | ⟨k, ks⟩, _ | text⟩ := d
  · simp [Draft.stored?] at h
  · simp [Draft.stored?] at h
  · simp [Draft.stored?] at h
  · simp only [Draft.stored?, Option.ite_none_left_eq_some, Option.some.injEq,
      Prod.mk.injEq] at h
    obtain ⟨hblank, rfl, rfl⟩ := h
    rw [String.toList_ofList]
    exact ⟨by simp, hblank⟩

/-- What is stored has a key and a value. -/
theorem of_get?_entriesOf {file text key : String} {entry : CatalogEntry}
    (h : (entriesOf file text).get? key = some entry) :
    key ≠ "" ∧ trim entry.value.toList ≠ [] := by
  rw [get?_entriesOf] at h
  obtain ⟨ev, -, hentry⟩ := List.exists_of_findSome?_eq_some h
  cases ev with
  | finding d => exact absurd hentry nofun
  | closed b =>
    obtain ⟨value, hvalue, rfl⟩ := Option.map_eq_some_iff.1 hentry
    obtain ⟨⟨k, v⟩, hstored, rfl⟩ := Option.map_eq_some_iff.1 hvalue
    obtain ⟨hdraft, hkey⟩ := Option.filter_eq_some_iff.1 hstored
    rw [← (of_decide_eq_true hkey : k = key)]
    exact of_stored?_eq_some hdraft

/-- Of the entries that the lines of a text open, those that are no headers have had an outcome. -/
theorem countP_opensEntry_lines (file text : String) :
    (lines text.toList).countP opensEntry =
      ((Reader.start file).absorbAll file (events text)).settled +
        (openedKeys (lines text.toList)).count [] := by
  have hkeys : (closedEntries (events text)).map OpenEntry.key = openedKeys (lines text.toList) :=
    keys_closedEntries_eventsFrom .idle 0 _
  have hstart : (Reader.start file).settled = 0 := rfl
  rw [Reader.settled_absorbAll _ _ fun d => isLineRule_of_finding, hstart, Nat.zero_add,
    ← length_openedKeys, ← hkeys, List.length_map, List.count, List.countP_map,
    List.length_eq_countP_add_countP (·.key ≠ [])]
  -- an entry is either a header or not
  congr 2
  funext ⟨key, range, value⟩
  cases key <;> rfl

/-- **Every entry that a text opens has one outcome, and what is reported is honest.** A catalog has
one language; what is stored has a key that is not empty and a value that is not blank; the reading
is a failure exactly when more than duplicates is reported; and the lines that open an entry are as
many as the entries that are stored, the duplicates, the missing and the empty values that are
reported, and the empty keys, all together. -/
theorem parse_accounts (file text : String) :
    ∃ language entries, (parse file text).languages = Dict.empty.insert language entries ∧
      (∀ key entry, entries.get? key = some entry →
        key ≠ "" ∧ trim entry.value.toList ≠ []) ∧
      ((parse file text).success = false ↔
        ∃ d ∈ (parse file text).diagnostics, d.rule ≠ .duplicateKey) ∧
      (lines text.toList).countP opensEntry =
        entries.size + reported .warning .duplicateKey (parse file text).diagnostics +
          reported .error .missingValue (parse file text).diagnostics +
          reported .warning .emptyValue (parse file text).diagnostics +
          (openedKeys (lines text.toList)).count [] := by
  refine ⟨languageOf file text, entriesOf file text, languages_parse file text,
    fun key entry => of_get?_entriesOf, ?_, ?_⟩
  · simpa [isFault] using @success_parse_eq_false_iff file text
  · rw [countP_opensEntry_lines file, Reader.settled, parse_eq_absorb]
    rfl

/-- A catalog with a header, a stored entry, one more of its key, an entry without a value, one with
a blank value and a line that opens none. -/
def outcomesText : String :=
  "msgid \"\"\nmsgstr \"\"\n\nmsgid \"a\"\nmsgstr \"1\"\n\nmsgid \"a\"\nmsgstr \"2\"\n\n" ++
  "msgid \"b\"\nmsgid \"\"\n\"c\"\nmsgstr \" \"\nmsgid d\n"

/-- The statement above speaks of every outcome. -/
theorem parse_accounts_sample :
    (entriesOf "de.po" outcomesText).get? "a" = some ⟨"2", ⟨"de.po", ⟨⟨6, 6⟩, ⟨6, 9⟩⟩⟩⟩ ∧
    "a" ≠ "" ∧ trim "2".toList ≠ [] ∧
    (parse "de.po" outcomesText).success = false ∧
    (lines outcomesText.toList).countP opensEntry = 5 ∧
    (entriesOf "de.po" outcomesText).size = 1 ∧
    reported .warning .duplicateKey (parse "de.po" outcomesText).diagnostics = 1 ∧
    reported .error .missingValue (parse "de.po" outcomesText).diagnostics = 1 ∧
    reported .warning .emptyValue (parse "de.po" outcomesText).diagnostics = 1 ∧
    (openedKeys (lines outcomesText.toList)).count [] = 1 := by
  have ha : (entriesOf "de.po" outcomesText).get? "a" =
      some ⟨"2", ⟨"de.po", ⟨⟨6, 6⟩, ⟨6, 9⟩⟩⟩⟩ := by decide +kernel
  have hdiagnostics : (parse "de.po" outcomesText).diagnostics =
      [⟨⟨⟨6, 6⟩, ⟨6, 9⟩⟩, "duplicate msgid 'a'", .warning, .duplicateKey⟩,
        ⟨⟨⟨9, 6⟩, ⟨9, 9⟩⟩, "missing msgstr for msgid 'b'", .error, .missingValue⟩,
        ⟨⟨⟨13, 0⟩, ⟨13, 5⟩⟩, "invalid msgid format, expected quoted string", .error,
          .invalidToken⟩,
        ⟨⟨⟨12, 7⟩, ⟨12, 10⟩⟩, "empty msgstr for msgid 'c'", .warning, .emptyValue⟩] := by
    decide +kernel
  have hduplicate :
      reported .warning .duplicateKey (parse "de.po" outcomesText).diagnostics = 1 := by
    rw [hdiagnostics]
    rfl
  have hmissing : reported .error .missingValue (parse "de.po" outcomesText).diagnostics = 1 := by
    rw [hdiagnostics]
    rfl
  have hempty : reported .warning .emptyValue (parse "de.po" outcomesText).diagnostics = 1 := by
    rw [hdiagnostics]
    rfl
  obtain ⟨hopened, hheader⟩ : (lines outcomesText.toList).countP opensEntry = 5 ∧
      (openedKeys (lines outcomesText.toList)).count [] = 1 := by decide +kernel
  obtain ⟨language, entries, hlanguages, hstored, hsuccess, hcount⟩ :=
    parse_accounts "de.po" outcomesText
  rw [languages_parse] at hlanguages
  obtain ⟨-, rfl⟩ := Dict.insert_empty_inj hlanguages
  obtain ⟨hkey, hvalue⟩ := hstored _ _ ha
  have hfailure := hsuccess.2 (by rw [hdiagnostics]; decide)
  -- what is left for the stored entries is what the count leaves over
  exact ⟨ha, hkey, hvalue, hfailure, hopened, by omega, hduplicate, hmissing, hempty, hheader⟩

end Concord.Catalog
