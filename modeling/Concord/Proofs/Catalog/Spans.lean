import Concord.Proofs.Catalog.KeyLines
import Concord.Proofs.Catalog.Reports
import Concord.Proofs.Dictionaries
import Concord.Proofs.Text.Resolution

/-!
# Where keys and findings are

Everything a catalog places is placed inside its text: both ends of a range lie in lines of the
text, between characters, and they are in order (`Text.IsSpan`). A finding about a line is on that
line. A key begins at the quote after the word that opens its entry and ends behind a quote further
on (`IsKeySpan`), and this stays so while lines go on with it; a value begins and ends on lines that
were read. So the open entry is well placed after every line (`Cursor.placed_read`), hence every
entry is when it is closed (`placed_of_mem_eventsFrom`), and what a catalog says of places holds of
its text (`parse_spans`).
-/

namespace Concord

namespace Text

/-! ### Ranges in lines -/

/-- A range in lines: both ends lie in them, in order. -/
structure IsSpan (ls : List (List Char)) (r : Range) : Prop where
  start : IsPlace ls r.start
  stop : IsPlace ls r.stop
  ordered : r.start ≤ r.stop

/-- A range in a text: both ends have an offset, and they are in order. -/
structure Resolves (text : List Char) (r : Range) : Prop where
  start : (offsetAt? text r.start).isSome
  stop : (offsetAt? text r.stop).isSome
  ordered : r.start ≤ r.stop

variable {ls : List (List Char)} {text : List Char} {p q : Position} {r : Range}

theorem IsSpan.resolves (h : IsSpan (lines text) r) : Resolves text r :=
  ⟨h.start.isSome_offsetAt?, h.stop.isSome_offsetAt?, h.ordered⟩

theorem IsSpan.between (hp : IsPlace ls p) (hq : IsPlace ls q) : IsSpan ls (.between p q) := by
  refine ⟨?_, ?_, Range.start_le_stop_between p q⟩
  · rw [Range.between]
    split
    · exact hq
    · exact hp
  · rw [Range.between]
    split
    · exact hp
    · exact hq

end Text

namespace Catalog

open Text

/-! ### The ranges of one line -/

section Line

variable {ls before after : List (List Char)} {raw : List Char}

/-- The beginning of a line ends at a place. -/
theorem isPlace_units16 {pre rest : List Char} (hls : ls = before ++ raw :: after)
    (hraw : raw = pre ++ rest) : IsPlace ls ⟨before.length, units16 pre⟩ :=
  ⟨before, pre, rest, after, hraw ▸ hls, rfl⟩

theorem isSpan_quoteRange (hls : ls = before ++ raw :: after) :
    IsSpan ls (quoteRange before.length raw) := by
  have hstop : raw = (raw.reverse.dropWhile (· ≠ '"')).reverse ++
      (raw.reverse.takeWhile (· ≠ '"')).reverse := by
    rw [← List.reverse_append, List.takeWhile_append_dropWhile, List.reverse_reverse]
  exact IsSpan.between
    (isPlace_units16 hls (List.takeWhile_append_dropWhile (p := (· ≠ '"'))).symm)
    (isPlace_units16 hls hstop)

theorem isSpan_tokenRange (hls : ls = before ++ raw :: after) {token : List Char}
    (h : Line.ofRaw raw = .malformed token) : IsSpan ls (tokenRange before.length raw token) := by
  obtain ⟨rest, hraw⟩ := exists_of_malformed h
  rw [tokenRange, ← units16_append]
  exact IsSpan.between (isPlace_units16 hls hraw)
    (isPlace_units16 hls (hraw.trans (List.append_assoc ..).symm))

/-- **A finding about a line is on the line.** -/
theorem IsAbout.isSpan {d : Diagnostic} (hls : ls = before ++ raw :: after)
    (h : IsAbout before.length raw d) : IsSpan ls d.range := by
  obtain ⟨-, hrange | hrange | ⟨token, hmalformed, hrange⟩⟩ := h <;> rw [hrange]
  · have hplace : IsPlace ls ⟨before.length, 0⟩ := isPlace_units16 hls (List.nil_append raw).symm
    exact ⟨hplace, hplace, Position.le_iff.2 (.inr ⟨rfl, Nat.le_refl _⟩)⟩
  · exact isSpan_quoteRange hls
  · exact isSpan_tokenRange hls hmalformed

end Line

/-! ### The range of a key -/

/-- A range in lines from the quote after the word that opens an entry to just behind a quote
further on. -/
structure IsKeySpan (ls : List (List Char)) (r : Range) : Prop where
  opener : ∃ before lead gap rest after,
    ls = before ++ (lead ++ ("msgid".toList ++ (gap ++ '"' :: rest))) :: after ∧
    (∀ c ∈ lead, isBlank c) ∧ gap ≠ [] ∧ (∀ c ∈ gap, isBlank c) ∧
    r.start = ⟨before.length, units16 (lead ++ ("msgid".toList ++ gap))⟩
  closer : ∃ before pre rest after, ls = before ++ (pre ++ '"' :: rest) :: after ∧
    r.stop = ⟨before.length, units16 pre + 1⟩
  apart : r.start.line < r.stop.line ∨
    r.start.line = r.stop.line ∧ r.start.column + 2 ≤ r.stop.column

theorem charUnits16_quote : charUnits16 '"' = 1 := rfl

section Key

variable {ls before after : List (List Char)} {raw text : List Char}

/-- The range of a line that opens an entry. -/
theorem isKeySpan_quoteRange (hls : ls = before ++ raw :: after)
    (h : Line.ofRaw raw = .keyword .id text) : IsKeySpan ls (quoteRange before.length raw) := by
  obtain ⟨lead, gap, quoted, post, rfl, hlead, hgap, hblank, hpost, hunquote⟩ := ofRaw_eq_id_iff.1 h
  obtain ⟨inner, rfl⟩ := eq_of_unquote? hunquote
  have hquote : '"' ∉ lead ++ ("msgid".toList ++ gap) := by
    simp [quote_not_mem_of_blanks hlead, quote_not_mem_of_blanks hblank]
  have hraw : lead ++ ("msgid".toList ++ gap ++ '"' :: (inner ++ ['"']) ++ post) =
      (lead ++ ("msgid".toList ++ gap)) ++ ('"' :: (inner ++ ['"']) ++ post) := by
    simp only [List.append_assoc]
  rw [hraw] at hls ⊢
  rw [quoteRange_eq hquote (quote_not_mem_of_blanks hpost)]
  refine ⟨⟨before, lead, gap, inner ++ '"' :: post, after, ?_, hlead, hgap, hblank, rfl⟩,
    ⟨before, lead ++ ("msgid".toList ++ gap) ++ '"' :: inner, post, after, ?_, ?_⟩, .inr ⟨rfl, ?_⟩⟩
  · simpa using hls
  · simpa using hls
  · simp only [units16_append, units16_cons, units16_nil, charUnits16_quote, Nat.add_assoc]
  · simp only [units16_append, units16_cons, units16_nil, charUnits16_quote]
    omega

/-- The range of a key that goes on. -/
theorem IsKeySpan.extend {range : Range} {quoted : List Char} (h : IsKeySpan ls range)
    (habove : range.start.line < before.length) (hls : ls = before ++ raw :: after)
    (hraw : Line.ofRaw raw = .continuation quoted text) :
    IsKeySpan ls (.between range.start (quoteRange before.length raw).stop) := by
  obtain ⟨lead, post, rfl, hrange, -⟩ := exists_quoted_of_continuation hraw
  obtain ⟨inner, rfl⟩ := eq_of_unquote? (eq_of_continuation hraw).2
  rw [hrange, Range.between_of_line_lt habove]
  refine ⟨h.opener, ⟨before, lead ++ '"' :: inner, post, after, ?_, ?_⟩, .inl habove⟩
  · simpa using hls
  · simp only [units16_append, units16_cons, units16_nil, charUnits16_quote, Nat.add_assoc]

theorem IsKeySpan.isSpan {range : Range} (h : IsKeySpan ls range) : IsSpan ls range := by
  obtain ⟨⟨before, lead, gap, rest, after, hls, -, -, -, hstart⟩,
    ⟨before', pre, rest', after', hls', hstop⟩, hapart⟩ := h
  refine ⟨⟨before, _, '"' :: rest, after, ?_, hstart⟩,
    ⟨before', pre ++ ['"'], rest', after', ?_, ?_⟩, Position.le_iff.2 ?_⟩
  · simpa using hls
  · simpa using hls'
  · rw [hstop, units16_append]
    rfl
  · omega

/-- **The text of a key** begins and ends with a quote. -/
theorem IsKeySpan.exists_textAt? {text : List Char} {range : Range}
    (h : IsKeySpan (lines text) range) :
    ∃ inner, textAt? text range = some ('"' :: (inner ++ ['"'])) := by
  obtain ⟨⟨before, lead, gap, rest, after, hls, -, -, -, hstart⟩,
    ⟨before', pre', rest', after', hls', hstop⟩, hapart⟩ := h
  rw [hstart, hstop] at hapart
  obtain ⟨start, stop⟩ := range
  obtain ⟨rfl, rfl⟩ : start = _ ∧ stop = _ := ⟨hstart, hstop⟩
  generalize hpre : lead ++ ("msgid".toList ++ gap) = pre at hapart
  have hopener : lines text = before ++ (pre ++ '"' :: rest) :: after := by
    rw [hls, ← hpre]
    simp
  have hbehind : lines text = before ++ ((pre ++ ['"']) ++ rest) :: after := by
    rw [hopener, List.append_assoc, List.singleton_append]
  have hclosed : lines text = before' ++ ((pre' ++ ['"']) ++ rest') :: after' := by
    rw [hls', List.append_assoc, List.singleton_append]
  have hunits : ∀ cs : List Char, units16 (cs ++ ['"']) = units16 cs + 1 := fun cs =>
    units16_append cs ['"']
  -- the place behind the first quote is not after the place before the last one
  have hle := offsetAt?_le (offsetAt?_of_lines hbehind) (offsetAt?_of_lines hls') (by
    rw [Position.le_iff, hunits]
    dsimp only at hapart ⊢
    omega)
  have htext : (above before ++ (pre ++ ['"'])) ++ (rest ++ below after) = text := by
    rw [eq_of_lines hbehind]
    simp only [List.append_assoc]
  have htext' : (above before' ++ pre') ++ ('"' :: rest' ++ below after') = text := by
    rw [eq_of_lines hls']
    simp only [List.append_assoc]
  obtain ⟨inner, hinner, -⟩ := exists_append_of_bytes_le (htext.trans htext'.symm) hle
  refine ⟨inner, ?_⟩
  rw [textAt?, ← hunits, offsetAt?_of_lines hopener, offsetAt?_of_lines hclosed]
  dsimp only
  refine slice?_eq_some_iff.2 ⟨above before ++ pre, rest' ++ below after', ?_, rfl, ?_⟩
  · rw [← htext', hinner]
    simp
  · rw [← List.append_assoc (above before'), hinner]
    simp

end Key

/-! ### The entries of a text -/

/-- An entry whose key and value are placed in lines. -/
structure OpenEntry.Placed (ls : List (List Char)) (e : OpenEntry) : Prop where
  key : IsKeySpan ls e.keyRange
  value : ∀ v, e.value = some v → IsSpan ls v.2

/-- **The open entry stays well placed**: a line opens one that is, or leaves the open one with its
key or its value going on down to this line. -/
theorem Cursor.placed_read {c : Cursor} {ls before after : List (List Char)} {raw : List Char}
    (hls : ls = before ++ raw :: after) (habove : c.KeyAbove before.length)
    (h : ∀ e, c.current = some e → e.Placed ls) :
    ∀ e, (c.read before.length raw).2.current = some e → e.Placed ls := by
  have hspan := isSpan_quoteRange hls
  have hnone : ∀ e : OpenEntry, none = some e → e.Placed ls :=
    fun e he => absurd he.symm (Option.some_ne_none e)
  rw [Cursor.read]
  cases hraw : Line.ofRaw raw with
  | blank => exact hnone
  | comment => exact h
  | malformed token => exact h
  | unrecognized content => exact h
  | keyword k text =>
    cases k with
    | id =>
      intro e he
      obtain rfl := Option.some.inj he
      exact ⟨isKeySpan_quoteRange hls hraw, fun v hv => absurd hv.symm (Option.some_ne_none v)⟩
    | context => exact hnone
    | plural => exact h
    | value main =>
      obtain ⟨focus, _ | e₀⟩ := c
      · exact hnone
      · cases main with
        | false => exact h
        | true =>
          intro e he
          obtain rfl := Option.some.inj he
          refine ⟨(h e₀ rfl).key, fun v hv => ?_⟩
          obtain rfl := Option.some.inj hv
          exact hspan
  | continuation quoted text =>
    obtain ⟨focus, _ | e₀⟩ := c
    · cases focus <;> exact hnone
    · cases focus with
      | nothing => exact h
      | ignored => exact h
      | key =>
        intro e he
        obtain rfl := Option.some.inj he
        exact ⟨(h e₀ rfl).key.extend (habove e₀ rfl).1 hls hraw, (h e₀ rfl).value⟩
      | value =>
        intro e he
        obtain rfl := Option.some.inj he
        refine ⟨(h e₀ rfl).key, fun v hv => ?_⟩
        obtain rfl := Option.some.inj hv
        -- a value that goes on began where it did, or on this line
        cases hvalue : e₀.value with
        | none => exact IsSpan.between hspan.start hspan.stop
        | some v₀ => exact IsSpan.between ((h e₀ rfl).value v₀ hvalue).start hspan.stop

/-- **The entries that are closed are placed in the lines.** -/
theorem placed_of_mem_eventsFrom {c : Cursor} {ls lines : List (List Char)}
    (before : List (List Char)) (hls : ls = before ++ lines) (habove : c.KeyAbove before.length)
    (h : ∀ e, c.current = some e → e.Placed ls) :
    ∀ e ∈ closedEntries (c.eventsFrom before.length lines), e.Placed ls := by
  induction lines generalizing c before with
  | nil =>
    intro e he
    rw [Cursor.eventsFrom_nil, closedEntries_closing, Option.mem_toList] at he
    exact h e he
  | cons raw lines ih =>
    intro e he
    rw [Cursor.eventsFrom_cons, closedEntries_append, List.mem_append] at he
    rcases he with he | he
    · rcases habove.read_cases raw with ⟨hclosing, -⟩ | ⟨hnone, -⟩
      · rw [hclosing, closedEntries_closing, Option.mem_toList] at he
        exact h e he
      · rw [hnone] at he
        exact absurd he List.not_mem_nil
    · have hlength : (before ++ [raw]).length = before.length + 1 := List.length_append
      have hls' : ls = before ++ [raw] ++ lines := by
        rw [hls, List.append_assoc, List.singleton_append]
      refine ih (before ++ [raw]) hls' (hlength ▸ habove.read raw)
        (Cursor.placed_read hls habove h) e ?_
      rwa [hlength]

theorem placed_of_mem_events {text : String} {e : OpenEntry}
    (he : e ∈ closedEntries (events text)) : e.Placed (lines text.toList) := by
  have hidle : ∀ e, Cursor.idle.current ≠ some e := fun e h => nomatch h
  exact placed_of_mem_eventsFrom [] rfl (fun e h => absurd h (hidle e))
    (fun e h => absurd h (hidle e)) e he

/-! ### What a catalog says of places -/

/-- What a catalog reports is placed in its text. -/
theorem isSpan_of_mem_diagnostics {file text : String} {d : Diagnostic}
    (h : d ∈ (parse file text).diagnostics) : IsSpan (lines text.toList) d.range := by
  rw [parse_eq_absorb] at h
  rcases Reader.mem_diagnostics_absorbAll h with h | h | ⟨e, he, hrange⟩
  · exact absurd h List.not_mem_nil
  · obtain ⟨ev, hev, hfault⟩ := List.mem_filterMap.1 h
    cases ev with
    | finding d' =>
      obtain rfl := Option.some.inj hfault
      obtain ⟨before, raw, after, hlines, habout⟩ := Cursor.exists_line_of_finding hev
      exact IsAbout.isSpan hlines (Nat.zero_add before.length ▸ habout)
    | closed e =>
      have hplaced := placed_of_mem_events (mem_closedEntries.2 hev)
      rcases fault?_cases hfault with ⟨-, hrange⟩ | ⟨-, v, hv, hrange⟩
      · exact hrange ▸ hplaced.key.isSpan
      · exact hrange ▸ hplaced.value v hv
  · exact hrange ▸ (placed_of_mem_events (mem_closedEntries.2 he)).key.isSpan

/-- A range where a key stands in a text: it resolves, the text there begins and ends with a quote,
and before it on its line stand only blanks around the word `msgid`. -/
structure IsKeyRange (text : List Char) (r : Range) : Prop where
  resolves : Resolves text r
  quoted : ∃ inner, textAt? text r = some ('"' :: (inner ++ ['"']))
  opener : ∃ before lead gap rest after,
    lines text = before ++ (lead ++ ("msgid".toList ++ (gap ++ rest))) :: after ∧
    (∀ c ∈ lead, isBlank c) ∧ gap ≠ [] ∧ (∀ c ∈ gap, isBlank c) ∧
    r.start = ⟨before.length, units16 (lead ++ ("msgid".toList ++ gap))⟩

theorem IsKeySpan.isKeyRange {text : List Char} {r : Range} (h : IsKeySpan (lines text) r) :
    IsKeyRange text r := by
  refine ⟨h.isSpan.resolves, h.exists_textAt?, ?_⟩
  obtain ⟨before, lead, gap, rest, after, hopener⟩ := h.opener
  exact ⟨before, lead, gap, '"' :: rest, after, hopener⟩

/-- Whether a range takes up something of a line. -/
def OnLine (r : Range) (line : Nat) : Prop := r.start.line ≤ line ∧ line ≤ r.stop.line

/-- **What a catalog says of places holds of its text.** Whatever the text, the range of everything
that is reported resolves, with its ends in order; the range of every entry is where its key stands
behind the word `msgid`, from quote to quote; and the ranges of two entries share no line. -/
theorem parse_spans (file text : String) :
    ∃ language entries, (parse file text).languages = Dict.empty.insert language entries ∧
      (∀ d ∈ (parse file text).diagnostics, Resolves text.toList d.range) ∧
      (∀ key entry, entries.get? key = some entry →
        IsKeyRange text.toList entry.location.range) ∧
      ∀ key entry key' entry', entries.get? key = some entry → entries.get? key' = some entry' →
        key ≠ key' → ∀ line, OnLine entry.location.range line →
          ¬ OnLine entry'.location.range line := by
  refine ⟨languageOf file text, entriesOf file text, languages_parse file text,
    fun d hd => (isSpan_of_mem_diagnostics hd).resolves, fun key entry h => ?_,
    fun key entry key' entry' h h' hne line hline hline' => ?_⟩
  · obtain ⟨b, hb, -, hrange⟩ := exists_closed_of_get?_entriesOf h
    rw [hrange]
    exact (placed_of_mem_events hb).key.isKeyRange
  · obtain ⟨b, hb, hkey, hrange⟩ := exists_closed_of_get?_entriesOf h
    obtain ⟨b', hb', hkey', hrange'⟩ := exists_closed_of_get?_entriesOf h'
    -- entries with different keys were closed apart, one above the other
    have hbb' : b ≠ b' := by
      rintro rfl
      exact hne (Option.some.inj (hkey.symm.trans hkey'))
    rw [OnLine, hrange] at hline
    rw [OnLine, hrange'] at hline'
    rcases keysApart_of_mem_events hb hb' hbb' with habove | habove
    · rw [OpenEntry.KeyAbove] at habove
      omega
    · rw [OpenEntry.KeyAbove] at habove
      omega

/-- A catalog with a key on two lines, a key outside the basic plane and a word without a quoted
string. -/
def placesText : String :=
  "msgid \"a\"\n# note\n \"b\"\nmsgstr \"1\"\n\n  msgid\t\"😀\" \nmsgstr \"2\"\n msgid\n"

/-- The statement above speaks of two entries and of a finding. -/
theorem parse_spans_sample :
    (entriesOf "de.po" placesText).get? "ab" =
      some ⟨"1", ⟨"de.po", ⟨⟨0, 6⟩, ⟨2, 4⟩⟩⟩⟩ ∧
    (entriesOf "de.po" placesText).get? "😀" =
      some ⟨"2", ⟨"de.po", ⟨⟨5, 8⟩, ⟨5, 12⟩⟩⟩⟩ ∧
    Resolves placesText.toList ⟨⟨7, 1⟩, ⟨7, 6⟩⟩ ∧
    IsKeyRange placesText.toList ⟨⟨0, 6⟩, ⟨2, 4⟩⟩ ∧
    ∀ line, OnLine ⟨⟨0, 6⟩, ⟨2, 4⟩⟩ line → ¬ OnLine ⟨⟨5, 8⟩, ⟨5, 12⟩⟩ line := by
  have hab : (entriesOf "de.po" placesText).get? "ab" =
      some ⟨"1", ⟨"de.po", ⟨⟨0, 6⟩, ⟨2, 4⟩⟩⟩⟩ := by decide +kernel
  have hface : (entriesOf "de.po" placesText).get? "😀" =
      some ⟨"2", ⟨"de.po", ⟨⟨5, 8⟩, ⟨5, 12⟩⟩⟩⟩ := by decide +kernel
  have hfinding : ⟨⟨⟨7, 1⟩, ⟨7, 6⟩⟩, "invalid msgid format, expected quoted string", .error,
      .invalidToken⟩ ∈ (parse "de.po" placesText).diagnostics := by decide +kernel
  obtain ⟨language, entries, hlanguages, hresolves, hkey, hapart⟩ := parse_spans "de.po" placesText
  rw [languages_parse] at hlanguages
  obtain ⟨-, rfl⟩ := Dict.insert_empty_inj hlanguages
  exact ⟨hab, hface, hresolves _ hfinding, hkey _ _ hab, hapart _ _ _ _ hab hface (by decide)⟩

end Catalog

end Concord
