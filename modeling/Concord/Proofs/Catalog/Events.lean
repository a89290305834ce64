import Concord.Catalog.Parser
import Mathlib.Data.List.Basic

/-!
# Reading a catalog as a sequence of events

What a line does depends on very little of a reader: which string goes on and which entry is open.
This part, the `Cursor`, runs on its own and tells of two kinds of `Event`s: an entry was closed, or
something was found that makes the reading a failure. All that a catalog holds is put together from
the events alone (`parse_eq_absorb`), and it does not matter where in the file they occurred.

* `Cursor.read`, `Cursor.readAll` – one line and a list of lines;
* `events` – the events of a text;
* `Reader.absorb` – what an event does to a reader.
-/

namespace Concord.Catalog

/-- The part of a reader that decides what the next line does. -/
structure Cursor where
  focus : Focus
  current : Option OpenEntry
deriving DecidableEq, Repr

/-- What reading lines brings about. -/
inductive Event where
  | closed (e : OpenEntry)
  | finding (d : Diagnostic)
deriving DecidableEq, Repr

namespace Cursor

/-- Before the first line, and after an entry was closed. -/
def idle : Cursor := ⟨.nothing, none⟩

/-- The end of the open entry, if there is one. -/
def closing (c : Cursor) : List Event :=
  match c.current with
  | none => []
  | some e => [.closed e]

/-- A keyword with its text. -/
def keyword (c : Cursor) (range : Range) (k : Keyword) (text : List Char) : List Event × Cursor :=
  match k with
  | .id => (c.closing, ⟨.key, some ⟨text, range, none⟩⟩)
  | .context => (c.closing, ⟨.ignored, none⟩)
  | .plural => ([], ⟨.ignored, c.current⟩)
  | .value main =>
    match c.current with
    | some e =>
      if main then ([], ⟨.value, some { e with value := some (text, range) }⟩)
      else ([], ⟨.ignored, some e⟩)
    | none =>
      ([.finding ⟨range, "msgstr without a preceding msgid", .warning, .unrecognizedLine⟩],
        ⟨.ignored, none⟩)

/-- A quoted string on a line of its own. -/
def continuation (c : Cursor) (range : Range) (quoted text : List Char) : List Event × Cursor :=
  match c.focus, c.current with
  | .ignored, _ => ([], c)
  | .key, some e =>
    ([], ⟨.key, some { e with
      key := e.key ++ text
      keyRange := .between e.keyRange.start range.stop }⟩)
  | .value, some e =>
    let old := e.value.getD ([], range)
    ([], ⟨.value, some { e with
      value := some (old.1 ++ text, .between old.2.start range.stop) }⟩)
  | _, _ =>
    ([.finding ⟨range,
      s!"unexpected continuation string outside of msgid/msgstr: {String.ofList quoted}",
      .warning, .unexpectedContinuation⟩], c)

/-- One line: what it brings about and what is known after it. -/
def read (c : Cursor) (line : Nat) (raw : List Char) : List Event × Cursor :=
  match Line.ofRaw raw with
  | .blank => (c.closing, idle)
  | .comment => ([], c)
  | .keyword k text => c.keyword (quoteRange line raw) k text
  | .continuation quoted text => c.continuation (quoteRange line raw) quoted text
  | .malformed token =>
    ([.finding ⟨tokenRange line raw token,
      s!"invalid {String.ofList token} format, expected quoted string", .error, .invalidToken⟩], c)
  | .unrecognized content =>
    ([.finding ⟨⟨⟨line, 0⟩, ⟨line, 0⟩⟩,
      s!"unrecognized line in catalog: {String.ofList content}", .warning, .unrecognizedLine⟩], c)

/-- A list of lines, the first of which has number `line`. -/
def readAll (c : Cursor) (line : Nat) : List (List Char) → List Event × Cursor
  | [] => ([], c)
  | raw :: rest =>
    let next := c.read line raw
    let last := next.2.readAll (line + 1) rest
    (next.1 ++ last.1, last.2)

/-- The events of a list of lines after which the text ends. -/
def eventsFrom (c : Cursor) (line : Nat) (lines : List (List Char)) : List Event :=
  (c.readAll line lines).1 ++ (c.readAll line lines).2.closing

@[simp] theorem readAll_nil (c : Cursor) (line : Nat) : c.readAll line [] = ([], c) := rfl

@[simp] theorem eventsFrom_nil (c : Cursor) (line : Nat) : c.eventsFrom line [] = c.closing := rfl

theorem eventsFrom_cons (c : Cursor) (line : Nat) (raw : List Char) (rest : List (List Char)) :
    c.eventsFrom line (raw :: rest) =
      (c.read line raw).1 ++ (c.read line raw).2.eventsFrom (line + 1) rest := by
  simp only [eventsFrom, readAll, List.append_assoc]

/-- An empty line closes what is open. -/
theorem eventsFrom_blank (c : Cursor) (line : Nat) (rest : List (List Char)) :
    c.eventsFrom line ([] :: rest) = c.closing ++ idle.eventsFrom (line + 1) rest :=
  eventsFrom_cons c line [] rest

/-- **Lines are read one after the other.** -/
theorem readAll_append (c : Cursor) (line : Nat) (before after : List (List Char)) :
    c.readAll line (before ++ after) =
      ((c.readAll line before).1 ++
        ((c.readAll line before).2.readAll (line + before.length) after).1,
        ((c.readAll line before).2.readAll (line + before.length) after).2) := by
  induction before generalizing c line with
  | nil => simp
  | cons raw rest ih =>
    rw [List.cons_append, readAll, ih, readAll, List.length_cons, Nat.add_right_comm line 1,
      Nat.add_assoc line]
    simp only [List.append_assoc]

theorem eventsFrom_append (c : Cursor) (line : Nat) (before after : List (List Char)) :
    c.eventsFrom line (before ++ after) =
      (c.readAll line before).1 ++
        (c.readAll line before).2.eventsFrom (line + before.length) after := by
  rw [eventsFrom, readAll_append, eventsFrom, List.append_assoc]

end Cursor

/-- The events of a text. -/
def events (text : String) : List Event :=
  Cursor.idle.eventsFrom 0 (Text.lines text.toList)

namespace Reader

/-- The part of a reader that decides what the next line does. -/
def cursor (r : Reader) : Cursor := ⟨r.focus, r.current⟩

/-- A reader with another cursor. -/
def place (r : Reader) (c : Cursor) : Reader := { r with focus := c.focus, current := c.current }

/-- What an event does to a reader. -/
def absorb (file : String) (r : Reader) : Event → Reader
  | .closed e => r.finish file e
  | .finding d => { r.report d with success := false }

/-- What some events do to a reader. -/
def absorbAll (file : String) (r : Reader) (es : List Event) : Reader := es.foldl (absorb file) r

@[simp] theorem absorbAll_nil (file : String) (r : Reader) : r.absorbAll file [] = r := rfl

@[simp] theorem absorbAll_cons (file : String) (r : Reader) (ev : Event) (es : List Event) :
    r.absorbAll file (ev :: es) = (r.absorb file ev).absorbAll file es := rfl

theorem absorbAll_append (file : String) (r : Reader) (es es' : List Event) :
    r.absorbAll file (es ++ es') = (r.absorbAll file es).absorbAll file es' :=
  List.foldl_append

@[simp] theorem cursor_place (r : Reader) (c : Cursor) : (r.place c).cursor = c := rfl

@[simp] theorem place_cursor (r : Reader) : r.place r.cursor = r := rfl

@[simp] theorem place_place (r : Reader) (c c' : Cursor) : (r.place c).place c' = r.place c' := rfl

@[simp] theorem result_place (r : Reader) (c : Cursor) : (r.place c).result = r.result := rfl

theorem store_place (r : Reader) (c : Cursor) (file key : String) (range : Range)
    (value : List Char) : (r.place c).store file key range value =
      (r.store file key range value).place c := by
  cases h : r.entries.contains key <;> simp [store, place, report, h]

theorem finish_place (r : Reader) (c : Cursor) (file : String) (e : OpenEntry) :
    (r.place c).finish file e = (r.finish file e).place c := by
  rcases e with ⟨_ | ⟨k, ks⟩, range, _ | ⟨text, textRange⟩⟩
  · simp only [finish]
    split <;> rfl
  · simp only [finish]
    split <;> rfl
  · rfl
  · simp only [finish]
    split
    · rfl
    · exact store_place r c file _ range text

/-- What an event does is independent of the cursor. -/
theorem absorb_place (r : Reader) (c : Cursor) (file : String) (ev : Event) :
    (r.place c).absorb file ev = (r.absorb file ev).place c := by
  cases ev with
  | closed e => exact finish_place r c file e
  | finding d => rfl

theorem absorbAll_place (r : Reader) (c : Cursor) (file : String) (es : List Event) :
    (r.place c).absorbAll file es = (r.absorbAll file es).place c := by
  induction es generalizing r with
  | nil => rfl
  | cons ev es ih => rw [absorbAll_cons, absorbAll_cons, absorb_place, ih]

theorem close_eq_absorbAll (r : Reader) (file : String) :
    r.close file = (r.absorbAll file r.cursor.closing).place .idle := by
  rcases hr : r.current with _ | e
  · simp only [close, Cursor.closing, cursor, hr]
    rfl
  · simp only [close, Cursor.closing, cursor, hr]
    exact finish_place r .idle file e

theorem keyword_eq_absorbAll (r : Reader) (file : String) (range : Range) (k : Keyword)
    (text : List Char) : r.keyword file range k text =
      (r.absorbAll file (r.cursor.keyword range k text).1).place
        (r.cursor.keyword range k text).2 := by
  cases k with
  | id =>
    rw [keyword, close_eq_absorbAll]
    rfl
  | context =>
    rw [keyword, close_eq_absorbAll]
    rfl
  | plural => rfl
  | value main =>
    rcases hr : r.current with _ | e
    · simp only [keyword, Cursor.keyword, cursor, hr]
      simp [absorb, fail, report, place, hr]
    · cases main
      · simp only [keyword, Cursor.keyword, cursor, hr]
        simp [place]
      · simp only [keyword, Cursor.keyword, cursor, hr]
        rfl

theorem continuation_eq_absorbAll (r : Reader) (file : String) (range : Range)
    (quoted text : List Char) : r.continuation range quoted text =
      (r.absorbAll file (r.cursor.continuation range quoted text).1).place
        (r.cursor.continuation range quoted text).2 := by
  obtain ⟨language, entries, diagnostics, success, focus, current⟩ := r
  -- what a continuation does is decided by the cursor alone
  cases focus <;> rcases current with _ | e <;> rfl

/-- **One line does to a reader what its events do**, and moves the cursor. -/
theorem step_eq_absorbAll (r : Reader) (file : String) (line : Nat) (raw : List Char) :
    r.step file line raw =
      (r.absorbAll file (r.cursor.read line raw).1).place (r.cursor.read line raw).2 := by
  rw [step, Cursor.read]
  cases Line.ofRaw raw with
  | blank => exact close_eq_absorbAll r file
  | comment => rfl
  | keyword k text => exact keyword_eq_absorbAll r file _ k text
  | malformed token => rfl
  | continuation quoted text => exact continuation_eq_absorbAll r file _ quoted text
  | unrecognized content => rfl

theorem close_run_eq_absorbAll (r : Reader) (file : String) (line : Nat)
    (lines : List (List Char)) : (r.run file line lines).close file =
      (r.absorbAll file (r.cursor.eventsFrom line lines)).place .idle := by
  induction lines generalizing r line with
  | nil => exact close_eq_absorbAll r file
  | cons raw rest ih =>
    rw [run, ih, step_eq_absorbAll, cursor_place, absorbAll_place, place_place,
      Cursor.eventsFrom_cons, absorbAll_append]

end Reader

/-- **What a catalog holds is put together from the events of its text.** -/
theorem parse_eq_absorb (file text : String) :
    parse file text = ((Reader.start file).absorbAll file (events text)).result := by
  rw [parse, Reader.close_run_eq_absorbAll, Reader.result_place]
  rfl

end Concord.Catalog
