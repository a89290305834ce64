import Concord.Proofs.Catalog.Events
import Concord.Proofs.Dictionaries
import Concord.Proofs.Text.Lines
import Mathlib.Order.Monotone.Basic
import Mathlib.Order.Nat

/-!
# Lines under other numbers

The number of a line decides nothing while a catalog is read; it only goes into ranges. So when
lines get other numbers in the same order, a line is read as before, and what it brings about is
found under the new number (`Cursor.read_renumber`). A catalog put together from such events is the
same catalog with its ranges renumbered (`parse_of_events_renumber`).

The order matters because the ends of a range are put in order: a numbering that is strictly
increasing never makes them change places (`Range.renumber_between`).
-/

namespace Concord

/-! ### Places under other numbers -/

/-- A place whose line has another number. -/
def Position.renumber (f : Nat → Nat) (p : Position) : Position := ⟨f p.line, p.column⟩

/-- A range whose lines have other numbers. -/
def Range.renumber (f : Nat → Nat) (r : Range) : Range := ⟨r.start.renumber f, r.stop.renumber f⟩

/-- A finding whose lines have other numbers. -/
def Diagnostic.renumber (f : Nat → Nat) (d : Diagnostic) : Diagnostic :=
  { d with range := d.range.renumber f }

/-- An entry whose lines have other numbers. -/
def CatalogEntry.renumber (f : Nat → Nat) (e : CatalogEntry) : CatalogEntry :=
  { e with location := { e.location with range := e.location.range.renumber f } }

/-- A catalog whose lines have other numbers: its languages, keys and values are the same, and so
are the findings in their order. -/
def Catalog.renumber (f : Nat → Nat) (c : Catalog) : Catalog where
  languages := c.languages.mapValues fun entries => entries.mapValues (CatalogEntry.renumber f)
  diagnostics := c.diagnostics.map (Diagnostic.renumber f)
  success := c.success

variable {f : Nat → Nat}

theorem Range.renumber_between (hf : StrictMono f) (p q : Position) :
    (between p q).renumber f = between (p.renumber f) (q.renumber f) := by
  have hlt : q.renumber f < p.renumber f ↔ q < p := by
    rw [Position.lt_iff, Position.lt_iff, Position.renumber, Position.renumber, hf.lt_iff_lt,
      hf.injective.eq_iff]
  by_cases h : q < p
  · rw [between, between, if_pos h, if_pos (hlt.2 h)]
    rfl
  · rw [between, between, if_neg h, if_neg (mt hlt.1 h)]
    rfl

namespace Catalog

theorem quoteRange_renumber (hf : StrictMono f) (line : Nat) (raw : List Char) :
    quoteRange (f line) raw = (quoteRange line raw).renumber f := by
  rw [quoteRange, quoteRange, Range.renumber_between hf]
  rfl

theorem tokenRange_renumber (hf : StrictMono f) (line : Nat) (raw token : List Char) :
    tokenRange (f line) raw token = (tokenRange line raw token).renumber f := by
  rw [tokenRange, tokenRange, Range.renumber_between hf]
  rfl

/-- An open entry whose lines have other numbers. -/
def OpenEntry.renumber (f : Nat → Nat) (e : OpenEntry) : OpenEntry :=
  { e with
    keyRange := e.keyRange.renumber f
    value := e.value.map fun v => (v.1, v.2.renumber f) }

/-- An event whose lines have other numbers. -/
def Event.renumber (f : Nat → Nat) : Event → Event
  | closed e => .closed (e.renumber f)
  | finding d => .finding (d.renumber f)

/-- A cursor whose lines have other numbers. -/
def Cursor.renumber (f : Nat → Nat) (c : Cursor) : Cursor :=
  { c with current := c.current.map (OpenEntry.renumber f) }

/-- A reader whose lines have other numbers. -/
def Reader.renumber (f : Nat → Nat) (r : Reader) : Reader :=
  { r with
    entries := r.entries.mapValues (CatalogEntry.renumber f)
    diagnostics := r.diagnostics.map (Diagnostic.renumber f)
    current := r.current.map (OpenEntry.renumber f) }

/-! ### Reading lines under other numbers -/

namespace Cursor

theorem closing_renumber (f : Nat → Nat) (c : Cursor) :
    (c.renumber f).closing = c.closing.map (Event.renumber f) := by
  obtain ⟨focus, _ | e⟩ := c <;> rfl

theorem keyword_renumber (f : Nat → Nat) (c : Cursor) (range : Range) (k : Keyword)
    (text : List Char) :
    (c.renumber f).keyword (range.renumber f) k text =
      ((c.keyword range k text).1.map (Event.renumber f),
        (c.keyword range k text).2.renumber f) := by
  cases k with
  | id => exact Prod.ext (closing_renumber f c) rfl
  | context => exact Prod.ext (closing_renumber f c) rfl
  | plural => rfl
  | value main => obtain ⟨focus, _ | e⟩ := c <;> cases main <;> rfl

theorem continuation_renumber (hf : StrictMono f) (c : Cursor) (range : Range)
    (quoted text : List Char) :
    (c.renumber f).continuation (range.renumber f) quoted text =
      ((c.continuation range quoted text).1.map (Event.renumber f),
        (c.continuation range quoted text).2.renumber f) := by
  -- a string that goes on has a range from where it began to the end of this line
  have hgrown : ∀ start, (Range.between start range.stop).renumber f =
      .between (start.renumber f) (range.renumber f).stop :=
    fun start => Range.renumber_between hf start range.stop
  obtain ⟨focus, _ | e⟩ := c
  · cases focus <;> rfl
  · cases focus with
    | nothing => rfl
    | ignored => rfl
    | key =>
      simp only [renumber, continuation, Option.map_some, OpenEntry.renumber, List.map_nil, hgrown]
      rfl
    | value =>
      rcases hv : e.value with _ | v <;>
        simp only [renumber, continuation, Option.map_some, Option.map_none, OpenEntry.renumber,
          List.map_nil, hv, Option.getD_none, Option.getD_some, hgrown] <;> rfl

/-- **A line is read in the same way under another number.** -/
theorem read_renumber (hf : StrictMono f) (c : Cursor) (line : Nat) (raw : List Char) :
    (c.renumber f).read (f line) raw =
      ((c.read line raw).1.map (Event.renumber f), (c.read line raw).2.renumber f) := by
  rw [read, read, quoteRange_renumber hf]
  cases Line.ofRaw raw with
  | blank => exact Prod.ext (closing_renumber f c) rfl
  | comment => rfl
  | keyword k text => exact keyword_renumber f c _ k text
  | continuation quoted text => exact continuation_renumber hf c _ quoted text
  | malformed token =>
    dsimp only
    rw [tokenRange_renumber hf]
    rfl
  | unrecognized content => rfl

end Cursor

/-! ### Catalogs under other numbers -/

namespace Reader

theorem store_renumber (f : Nat → Nat) (r : Reader) (file key : String) (range : Range)
    (value : List Char) :
    (r.renumber f).store file key (range.renumber f) value =
      (r.store file key range value).renumber f := by
  have hcontains : (r.renumber f).entries.contains key = r.entries.contains key :=
    Dict.contains_mapValues r.entries _ key
  rw [store, store, hcontains]
  cases r.entries.contains key <;>
    simp [renumber, report, Dict.mapValues_insert, CatalogEntry.renumber, Diagnostic.renumber]

theorem finish_renumber (f : Nat → Nat) (r : Reader) (file : String) (e : OpenEntry) :
    (r.renumber f).finish file (e.renumber f) = (r.finish file e).renumber f := by
  rcases e with ⟨_ | ⟨k, ks⟩, range, _ | ⟨text, textRange⟩⟩
  · simp only [finish, OpenEntry.renumber, Option.map_none]
    split <;> rfl
  · simp only [finish, OpenEntry.renumber, Option.map_some]
    split <;> rfl
  · simp [finish, fail, report, renumber, OpenEntry.renumber, Diagnostic.renumber]
  · simp only [finish, OpenEntry.renumber, Option.map_some]
    split
    · simp [fail, report, renumber, Diagnostic.renumber]
    · exact store_renumber f r file _ range text

theorem absorb_renumber (f : Nat → Nat) (r : Reader) (file : String) (ev : Event) :
    (r.renumber f).absorb file (ev.renumber f) = (r.absorb file ev).renumber f := by
  cases ev with
  | closed e => exact finish_renumber f r file e
  | finding d => simp [absorb, Event.renumber, renumber, report]

theorem absorbAll_renumber (f : Nat → Nat) (r : Reader) (file : String) (es : List Event) :
    (r.renumber f).absorbAll file (es.map (Event.renumber f)) =
      (r.absorbAll file es).renumber f := by
  induction es generalizing r with
  | nil => rfl
  | cons ev es ih => rw [List.map_cons, absorbAll_cons, absorbAll_cons, absorb_renumber, ih]

theorem result_renumber (f : Nat → Nat) (r : Reader) :
    (r.renumber f).result = r.result.renumber f := by
  simp [result, renumber, Catalog.renumber, Dict.mapValues_insert]

end Reader

/-- **The same events under other numbers make the same catalog**, with its ranges renumbered. -/
theorem parse_of_events_renumber {file text text' : String}
    (h : events text' = (events text).map (Event.renumber f)) :
    parse file text' = (parse file text).renumber f := by
  have hstart : (Reader.start file).renumber f = Reader.start file := rfl
  rw [parse_eq_absorb, parse_eq_absorb, h, ← Reader.result_renumber,
    ← Reader.absorbAll_renumber, hstart]

end Catalog

end Concord
