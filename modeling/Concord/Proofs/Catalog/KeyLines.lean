import Concord.Proofs.Catalog.KeySpan
import Concord.Proofs.Text.Places
import Mathlib.Data.List.Pairwise

/-!
# The keys of a catalog stand on lines of their own

Whatever a text looks like, an entry is closed before the line that opens the next one is read, and
its key has not grown beyond the lines read so far. So the keys of the entries that are closed one
after the other stand on lines one below the other (`pairwise_keyAbove_eventsFrom`): no two of them
even touch, and a place belongs to one key of a catalog at most (`eq_of_touches`).
-/

namespace Concord.Catalog

/-! ### One line -/

/-- The entry that an event closes. -/
def Event.entry? : Event → Option OpenEntry
  | closed e => some e
  | finding _ => none

/-- The entries that some events close. -/
def closedEntries (es : List Event) : List OpenEntry := es.filterMap Event.entry?

@[simp] theorem closedEntries_append (es es' : List Event) :
    closedEntries (es ++ es') = closedEntries es ++ closedEntries es' :=
  List.filterMap_append

theorem mem_closedEntries {es : List Event} {e : OpenEntry} :
    e ∈ closedEntries es ↔ .closed e ∈ es := by
  rw [closedEntries, List.mem_filterMap]
  constructor
  · rintro ⟨ev, hev, he⟩
    cases ev with
    | closed e' => exact Option.some.inj he ▸ hev
    | finding d => exact absurd he nofun
  · exact fun h => ⟨.closed e, h, rfl⟩

theorem closedEntries_closing (c : Cursor) : closedEntries c.closing = c.current.toList := by
  obtain ⟨focus, _ | e⟩ := c <;> rfl

/-- Whether the key of the open entry, if there is one, stands above a line. -/
def Cursor.KeyAbove (c : Cursor) (line : Nat) : Prop :=
  ∀ e, c.current = some e → e.keyRange.start.line < line ∧ e.keyRange.stop.line < line

theorem line_start_quoteRange (line : Nat) (raw : List Char) :
    (quoteRange line raw).start.line = line := by
  rw [quoteRange, Range.between]
  split <;> rfl

/-- **What one line does to keys**: it closes the open entry, and the key of one that it opens is on
this line; or it closes none, and the key of the open one grows at its end, down to this line at
most. -/
theorem Cursor.KeyAbove.read_cases {c : Cursor} {line : Nat} (h : c.KeyAbove line)
    (raw : List Char) :
    ((c.read line raw).1 = c.closing ∧
      ∀ e, (c.read line raw).2.current = some e → e.keyRange = quoteRange line raw) ∨
    (closedEntries (c.read line raw).1 = [] ∧
      ∀ e, (c.read line raw).2.current = some e → ∃ e₀, c.current = some e₀ ∧
        e.keyRange.start = e₀.keyRange.start ∧ e.keyRange.stop.line ≤ line) := by
  have hkept : ∀ e, c.current = some e → ∃ e₀, c.current = some e₀ ∧
      e.keyRange.start = e₀.keyRange.start ∧ e.keyRange.stop.line ≤ line :=
    fun e he => ⟨e, he, rfl, Nat.le_of_lt (h e he).2⟩
  have hnone : ∀ e : OpenEntry, none ≠ some e := fun e => (Option.some_ne_none e).symm
  rw [Cursor.read]
  cases Line.ofRaw raw with
  | blank => exact .inl ⟨rfl, fun e he => absurd he (hnone e)⟩
  | comment => exact .inr ⟨rfl, hkept⟩
  | malformed token => exact .inr ⟨rfl, hkept⟩
  | unrecognized content => exact .inr ⟨rfl, hkept⟩
  | keyword k text =>
    cases k with
    | id => exact .inl ⟨rfl, fun e he => Option.some.inj he ▸ rfl⟩
    | context => exact .inl ⟨rfl, fun e he => absurd he (hnone e)⟩
    | plural => exact .inr ⟨rfl, hkept⟩
    | value main =>
      obtain ⟨focus, _ | e₀⟩ := c
      · exact .inr ⟨rfl, fun e he => absurd he (hnone e)⟩
      · obtain ⟨e, he, hstart, hstop⟩ := hkept e₀ rfl
        cases main <;> exact .inr ⟨rfl, fun e' he' => Option.some.inj he' ▸ ⟨e, he, hstart, hstop⟩⟩
  | continuation quoted text =>
    obtain ⟨focus, _ | e₀⟩ := c
    · cases focus <;> exact .inr ⟨rfl, fun e he => absurd he (hnone e)⟩
    · obtain ⟨e, he, hstart, hstop⟩ := hkept e₀ rfl
      cases focus with
      | nothing => exact .inr ⟨rfl, hkept⟩
      | ignored => exact .inr ⟨rfl, hkept⟩
      | value =>
        exact .inr ⟨rfl, fun e' he' => Option.some.inj he' ▸ ⟨e, he, hstart, hstop⟩⟩
      | key =>
        -- the key began above this line, so its beginning stays and its end is on this line
        have hbetween : Range.between e₀.keyRange.start (quoteRange line raw).stop =
            ⟨e₀.keyRange.start, (quoteRange line raw).stop⟩ := by
          refine Range.between_of_line_lt ?_
          rw [line_stop_quoteRange]
          exact (h e₀ rfl).1
        refine .inr ⟨rfl, fun e' he' => ⟨e₀, rfl, ?_⟩⟩
        rw [← Option.some.inj he']
        dsimp only
        rw [hbetween, line_stop_quoteRange]
        exact ⟨rfl, Nat.le_refl _⟩

theorem Cursor.KeyAbove.read {c : Cursor} {line : Nat} (h : c.KeyAbove line) (raw : List Char) :
    (c.read line raw).2.KeyAbove (line + 1) := by
  intro e he
  rcases h.read_cases raw with ⟨-, hopened⟩ | ⟨-, hkept⟩
  · rw [hopened e he, line_start_quoteRange, line_stop_quoteRange]
    omega
  · obtain ⟨e₀, he₀, hstart, hstop⟩ := hkept e he
    obtain ⟨habove, -⟩ := h e₀ he₀
    rw [hstart]
    omega

/-! ### All lines -/

/-- Whether the key of an entry stands above the lines of another's. -/
def OpenEntry.KeyAbove (e e' : OpenEntry) : Prop := e.keyRange.stop.line < e'.keyRange.start.line

/-- A key that is closed began with the open one, or on one of the lines. -/
theorem line_le_of_mem_eventsFrom {c : Cursor} {line : Nat} (h : c.KeyAbove line)
    (lines : List (List Char)) {b : OpenEntry} (hb : b ∈ closedEntries (c.eventsFrom line lines)) :
    line ≤ b.keyRange.start.line ∨
      ∃ e, c.current = some e ∧ b.keyRange.start = e.keyRange.start := by
  induction lines generalizing c line with
  | nil =>
    rw [Cursor.eventsFrom_nil, closedEntries_closing, Option.mem_toList] at hb
    exact .inr ⟨b, hb, rfl⟩
  | cons raw lines ih =>
    rw [Cursor.eventsFrom_cons, closedEntries_append, List.mem_append] at hb
    rcases h.read_cases raw with ⟨hclosing, hopened⟩ | ⟨hnone, hkept⟩
    · rw [hclosing, closedEntries_closing, Option.mem_toList] at hb
      rcases hb with hb | hb
      · exact .inr ⟨b, hb, rfl⟩
      · rcases ih (h.read raw) hb with hline | ⟨e, he, hstart⟩
        · exact .inl (Nat.le_of_succ_le hline)
        · rw [hstart, hopened e he, line_start_quoteRange]
          exact .inl (Nat.le_refl _)
    · rw [hnone] at hb
      rcases ih (h.read raw) (hb.resolve_left List.not_mem_nil) with hline | ⟨e, he, hstart⟩
      · exact .inl (Nat.le_of_succ_le hline)
      · obtain ⟨e₀, he₀, hstart₀, -⟩ := hkept e he
        exact .inr ⟨e₀, he₀, hstart.trans hstart₀⟩

theorem pairwise_keyAbove_closing (c : Cursor) :
    (closedEntries c.closing).Pairwise OpenEntry.KeyAbove := by
  rw [closedEntries_closing]
  cases c.current with
  | none => exact List.Pairwise.nil
  | some e => exact List.pairwise_singleton _ _

/-- **The keys of a text stand one below the other**, each on lines of its own. -/
theorem pairwise_keyAbove_eventsFrom {c : Cursor} {line : Nat} (h : c.KeyAbove line)
    (lines : List (List Char)) :
    (closedEntries (c.eventsFrom line lines)).Pairwise OpenEntry.KeyAbove := by
  induction lines generalizing c line with
  | nil =>
    rw [Cursor.eventsFrom_nil]
    exact pairwise_keyAbove_closing c
  | cons raw lines ih =>
    rw [Cursor.eventsFrom_cons, closedEntries_append, List.pairwise_append]
    rcases h.read_cases raw with ⟨hclosing, hopened⟩ | ⟨hnone, -⟩
    · rw [hclosing]
      refine ⟨pairwise_keyAbove_closing c, ih (h.read raw), ?_⟩
      intro e he b hb
      rw [closedEntries_closing, Option.mem_toList] at he
      -- what was open ended above this line, and what is closed later begins here or below
      obtain ⟨-, hstop⟩ := h e he
      rw [OpenEntry.KeyAbove]
      rcases line_le_of_mem_eventsFrom (h.read raw) lines hb with hline | ⟨e', he', hstart⟩
      · omega
      · rw [hstart, hopened e' he', line_start_quoteRange]
        exact hstop
    · rw [hnone]
      exact ⟨List.Pairwise.nil, ih (h.read raw), fun e he => absurd he List.not_mem_nil⟩

/-! ### The keys of a catalog -/

/-- Whether the keys of two entries stand on different lines. -/
def OpenEntry.KeysApart (e e' : OpenEntry) : Prop := e.KeyAbove e' ∨ e'.KeyAbove e

instance : Std.Symm OpenEntry.KeysApart := ⟨fun _ _ => Or.symm⟩

/-- **Different entries of a text have their keys on different lines.** -/
theorem keysApart_of_mem_events {text : String} {b b' : OpenEntry}
    (hb : b ∈ closedEntries (events text)) (hb' : b' ∈ closedEntries (events text))
    (hne : b ≠ b') : b.KeysApart b' := by
  have hidle : Cursor.idle.KeyAbove 0 := fun e he => nomatch he
  have happart : (closedEntries (events text)).Pairwise OpenEntry.KeysApart :=
    (pairwise_keyAbove_eventsFrom hidle (Text.lines text.toList)).imp Or.inl
  exact happart.forall hb hb' hne

/-- An entry of a catalog was closed, with its key where the entry says. -/
theorem exists_closed_of_get?_entriesOf {file text key : String} {entry : CatalogEntry}
    (h : (entriesOf file text).get? key = some entry) :
    ∃ b ∈ closedEntries (events text), b.draft.stored?.map Prod.fst = some key ∧
      entry.location.range = b.keyRange := by
  rw [get?_entriesOf] at h
  obtain ⟨ev, hev, hentry⟩ := List.exists_of_findSome?_eq_some h
  cases ev with
  | closed b =>
    obtain ⟨value, hvalue, rfl⟩ := Option.map_eq_some_iff.1 hentry
    obtain ⟨stored, hstored, -⟩ := Option.map_eq_some_iff.1 hvalue
    obtain ⟨hstored, hkey⟩ := Option.filter_eq_some_iff.1 hstored
    refine ⟨b, mem_closedEntries.2 (List.mem_reverse.1 hev), ?_, rfl⟩
    rw [hstored, Option.map_some, of_decide_eq_true hkey]
  | finding d => exact absurd hentry nofun

/-- **A place belongs to one key of a catalog at most**, its ends included. -/
theorem eq_of_touches {file text key key' : String} {entry entry' : CatalogEntry} {p : Position}
    (h : (entriesOf file text).get? key = some entry)
    (h' : (entriesOf file text).get? key' = some entry') (hp : entry.location.range.touches p)
    (hp' : entry'.location.range.touches p) : key = key' := by
  obtain ⟨b, hb, hkey, hrange⟩ := exists_closed_of_get?_entriesOf h
  obtain ⟨b', hb', hkey', hrange'⟩ := exists_closed_of_get?_entriesOf h'
  rw [hrange, Range.touches_iff, Position.le_iff, Position.le_iff] at hp
  rw [hrange', Range.touches_iff, Position.le_iff, Position.le_iff] at hp'
  by_cases hsame : b = b'
  · rw [hsame, hkey'] at hkey
    exact (Option.some.inj hkey).symm
  · rcases keysApart_of_mem_events hb hb' hsame with habove | habove
    · rw [OpenEntry.KeyAbove] at habove
      omega
    · rw [OpenEntry.KeyAbove] at habove
      omega

end Concord.Catalog
