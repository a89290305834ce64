import Concord.Proofs.Catalog.Drafts
import Concord.Proofs.Catalog.QuotedLine

/-!
# Where the key of an entry is

A closed entry was opened by a line before it (`exists_opening`), and its key was read from that
line up to the last line that continues it (`exists_continuations`). In between stand only lines
that leave the entry open with its key still growing, and after it no line goes on with the key.
From there on the key is carried along and nothing depends on it (`Cursor.eventsFrom_rekey`).
-/

namespace Concord.Catalog

/-- An element of two lists put together is in the second or in the first. -/
theorem append_eq_append_cons {α : Type} {xs ys before after : List α} {b : α}
    (h : xs ++ ys = before ++ b :: after) :
    (∃ found, before = xs ++ found ∧ ys = found ++ b :: after) ∨
      ∃ tail, xs = before ++ b :: tail := by
  rcases List.append_eq_append_iff.1 h with ⟨found, rfl, hys⟩ | ⟨tail, rfl, htail⟩
  · exact .inl ⟨found, rfl, hys⟩
  · cases tail with
    | nil => exact .inl ⟨[], by simp, htail.symm⟩
    | cons a tail =>
      obtain ⟨rfl, -⟩ := List.cons.inj htail
      exact .inr ⟨tail, rfl⟩

/-- The first closed entry of some events and what precedes it are determined. -/
theorem closed_unique {F F' E E' : List Event} {b b' : OpenEntry}
    (h : F ++ .closed b :: E = F' ++ .closed b' :: E') (hF : drafts F = []) (hF' : drafts F' = []) :
    F = F' ∧ b = b' ∧ E = E' := by
  induction F generalizing F' with
  | nil =>
    cases F' with
    | nil => simpa using h
    | cons ev F' =>
      obtain ⟨rfl, -⟩ := List.cons.inj h
      simp at hF'
  | cons ev F ih =>
    cases F' with
    | nil =>
      obtain ⟨rfl, -⟩ := List.cons.inj h
      simp at hF
    | cons ev' F' =>
      obtain ⟨rfl, htail⟩ := List.cons.inj h
      cases ev with
      | closed e => simp at hF
      | finding d =>
        rw [drafts_finding] at hF hF'
        obtain ⟨rfl, rfl, rfl⟩ := ih htail hF hF'
        exact ⟨rfl, rfl, rfl⟩

/-! ### The line that opens an entry -/

/-- A line opens an entry, or closes the open one, or leaves it open. -/
theorem Cursor.read_cases (c : Cursor) (line : Nat) (raw : List Char) :
    (∃ text, Line.ofRaw raw = .keyword .id text ∧ c.read line raw =
      (c.closing, ⟨.key, some ⟨text, quoteRange line raw, none⟩⟩)) ∨
    ((c.read line raw).1 = c.closing ∧ (c.read line raw).2.current = none) ∨
    (drafts (c.read line raw).1 = [] ∧
      ((c.read line raw).2.current.isSome → c.current.isSome)) := by
  rw [Cursor.read]
  cases Line.ofRaw raw with
  | blank => exact .inr (.inl ⟨rfl, rfl⟩)
  | comment => exact .inr (.inr ⟨rfl, id⟩)
  | malformed token => exact .inr (.inr ⟨rfl, id⟩)
  | unrecognized content => exact .inr (.inr ⟨rfl, id⟩)
  | keyword k text =>
    cases k with
    | id => exact .inl ⟨text, rfl, rfl⟩
    | context => exact .inr (.inl ⟨rfl, rfl⟩)
    | plural => exact .inr (.inr ⟨rfl, id⟩)
    | value main =>
      obtain ⟨focus, _ | e⟩ := c
      · exact .inr (.inr ⟨rfl, id⟩)
      · cases main <;> exact .inr (.inr ⟨rfl, fun _ => rfl⟩)
  | continuation quoted text =>
    obtain ⟨focus, _ | e⟩ := c <;> cases focus <;>
      first
      | exact .inr (.inr ⟨rfl, fun _ => rfl⟩)
      | exact .inr (.inr ⟨rfl, id⟩)

theorem isSome_of_closing {c : Cursor} {E E' : List Event} {b : OpenEntry}
    (h : c.closing = E ++ .closed b :: E') : c.current.isSome ∧ E = [] := by
  obtain ⟨focus, _ | e⟩ := c
  · simp [Cursor.closing] at h
  · refine ⟨rfl, ?_⟩
    cases E with
    | nil => rfl
    | cons ev E => simp [Cursor.closing] at h

/-- **A closed entry was opened**: before the lines, or by one of them. -/
theorem exists_opening {c : Cursor} {line : Nat} {lines : List (List Char)}
    {before after : List Event} {b : OpenEntry}
    (h : c.eventsFrom line lines = before ++ .closed b :: after) :
    (c.current.isSome ∧ drafts before = []) ∨
    ∃ above opener rest text found, lines = above ++ opener :: rest ∧
      Line.ofRaw opener = .keyword .id text ∧
      before = (c.readAll line above).1 ++ (c.readAll line above).2.closing ++ found ∧
      drafts found = [] ∧
      (Cursor.mk .key (some ⟨text, quoteRange (line + above.length) opener, none⟩)).eventsFrom
        (line + above.length + 1) rest = found ++ .closed b :: after := by
  induction lines generalizing c line before with
  | nil =>
    obtain ⟨hsome, rfl⟩ := isSome_of_closing h
    exact .inl ⟨hsome, rfl⟩
  | cons raw lines ih =>
    rw [Cursor.eventsFrom_cons] at h
    rcases append_eq_append_cons h with ⟨found, rfl, hrest⟩ | ⟨tail, hclosed⟩
    · -- it is closed by a later line; if none of those opened it, this one did or it was open
      rcases ih hrest with ⟨hsome, hfound⟩ | ⟨above, opener, rest, text, found', rfl, hopener, rfl,
        hfound', hevents⟩
      · rcases c.read_cases line raw with ⟨text, hopener, hread⟩ | ⟨-, hnone⟩ | ⟨hdrafts, hopen⟩
        · rw [hread] at hrest ⊢
          exact .inr ⟨[], raw, lines, text, found, rfl, hopener, rfl, hfound, hrest⟩
        · rw [hnone] at hsome
          simp at hsome
        · exact .inl ⟨hopen hsome, by rw [drafts_append, hdrafts, hfound, List.append_nil]⟩
      · refine .inr ⟨raw :: above, opener, rest, text, found', rfl, hopener, ?_, hfound', ?_⟩
        · simp only [Cursor.readAll, List.append_assoc]
        · rw [List.length_cons, ← Nat.add_assoc, Nat.add_right_comm line]
          exact hevents
    · -- the entry is closed by this line, so it was open before
      rcases c.read_cases line raw with ⟨text, -, hread⟩ | ⟨hread, -⟩ | ⟨hdrafts, -⟩
      · rw [hread] at hclosed
        obtain ⟨hsome, rfl⟩ := isSome_of_closing hclosed
        exact .inl ⟨hsome, rfl⟩
      · rw [hread] at hclosed
        obtain ⟨hsome, rfl⟩ := isSome_of_closing hclosed
        exact .inl ⟨hsome, rfl⟩
      · rw [hclosed] at hdrafts
        simp at hdrafts

/-! ### The lines of a key -/

/-- Whether a line leaves an entry open with its key still growing. -/
def Line.staysInKey : Line → Bool
  | .comment | .malformed _ | .unrecognized _ | .continuation _ _ => true
  | .blank | .keyword _ _ => false

/-- Whether one of some lines goes on with a key that was growing before them. -/
def goesOn : List (List Char) → Bool
  | [] => false
  | raw :: rest =>
    match Line.ofRaw raw with
    | .continuation _ _ => true
    | .comment | .malformed _ | .unrecognized _ => goesOn rest
    | .blank | .keyword _ _ => false

/-- **The lines of a key end with the last that goes on with it.** -/
theorem exists_continuations {lines : List (List Char)} (h : goesOn lines) :
    ∃ inner last after quoted text, lines = inner ++ last :: after ∧
      (∀ raw ∈ inner, (Line.ofRaw raw).staysInKey) ∧
      Line.ofRaw last = .continuation quoted text ∧ goesOn after = false := by
  induction lines with
  | nil => simp [goesOn] at h
  | cons raw lines ih =>
    -- either a later line still goes on with the key or this one is the last
    by_cases hlater : goesOn lines
    · obtain ⟨inner, last, after, quoted, text, rfl, hinner, hlast, hafter⟩ := ih hlater
      refine ⟨raw :: inner, last, after, quoted, text, rfl, fun x hx => ?_, hlast, hafter⟩
      rcases List.mem_cons.1 hx with rfl | hx
      · rw [goesOn] at h
        split at h <;> simp_all [Line.staysInKey]
      · exact hinner x hx
    · rw [goesOn] at h
      split at h
      · next quoted text hraw =>
        exact ⟨[], raw, lines, quoted, text, rfl, by simp, hraw, Bool.eq_false_iff.2 hlater⟩
      · exact absurd h hlater
      · exact absurd h hlater
      · exact absurd h hlater
      · simp at h
      · simp at h

/-- One line that stays in the key. -/
theorem Cursor.read_staysInKey {raw : List Char} (h : (Line.ofRaw raw).staysInKey) (e : OpenEntry)
    (line : Nat) : ∃ e' : OpenEntry, ((Cursor.mk .key (some e)).read line raw).2 = ⟨.key, some e'⟩ ∧
      drafts ((Cursor.mk .key (some e)).read line raw).1 = [] ∧ e'.value = e.value ∧
      (e'.keyRange = e.keyRange ∨
        e'.keyRange = .between e.keyRange.start (quoteRange line raw).stop) := by
  rw [Cursor.read]
  cases hraw : Line.ofRaw raw with
  | blank => simp [hraw, Line.staysInKey] at h
  | keyword k text => simp [hraw, Line.staysInKey] at h
  | comment => exact ⟨e, rfl, rfl, rfl, .inl rfl⟩
  | malformed token => exact ⟨e, rfl, rfl, rfl, .inl rfl⟩
  | unrecognized content => exact ⟨e, rfl, rfl, rfl, .inl rfl⟩
  | continuation quoted text => exact ⟨_, rfl, rfl, rfl, .inr rfl⟩

theorem line_stop_quoteRange (line : Nat) (raw : List Char) :
    (quoteRange line raw).stop.line = line := by
  rw [quoteRange, Range.between]
  split <;> rfl

/-- **Lines that stay in the key** neither close the entry nor move the beginning of its key. -/
theorem Cursor.readAll_staysInKey {inner : List (List Char)}
    (h : ∀ raw ∈ inner, (Line.ofRaw raw).staysInKey) {e : OpenEntry} {line : Nat}
    (hline : e.keyRange.start.line < line) :
    ∃ e' : OpenEntry, ((Cursor.mk .key (some e)).readAll line inner).2 = ⟨.key, some e'⟩ ∧
      drafts ((Cursor.mk .key (some e)).readAll line inner).1 = [] ∧ e'.value = e.value ∧
      e'.keyRange.start = e.keyRange.start := by
  induction inner generalizing e line with
  | nil => exact ⟨e, rfl, rfl, rfl, rfl⟩
  | cons raw inner ih =>
    obtain ⟨e₁, hnext, hdrafts, hvalue, hrange⟩ :=
      read_staysInKey (h raw List.mem_cons_self) e line
    -- the range only grows at its end, because its beginning is on an earlier line
    have hstart : e₁.keyRange.start = e.keyRange.start := by
      rcases hrange with hrange | hrange
      · rw [hrange]
      · rw [hrange, Range.between_of_line_lt]
        rw [line_stop_quoteRange]
        exact hline
    obtain ⟨e₂, hlast, hdrafts', hvalue', hstart'⟩ :=
      ih (fun x hx => h x (List.mem_cons_of_mem _ hx)) (hstart ▸ Nat.lt_succ_of_lt hline)
    refine ⟨e₂, ?_, ?_, hvalue'.trans hvalue, hstart'.trans hstart⟩
    · simp only [readAll, hnext, hlast]
    · simp only [readAll, hnext, drafts_append, hdrafts, hdrafts', List.append_nil]

/-- **A key that lines go on with** ends with the last of them, and from there on the entry is the
one that is closed. -/
theorem exists_keyEnd {lines : List (List Char)} {e b : OpenEntry} {line : Nat}
    {found later : List Event} (hgoes : goesOn lines) (hline : e.keyRange.start.line < line)
    (h : (Cursor.mk .key (some e)).eventsFrom line lines = found ++ .closed b :: later)
    (hfound : drafts found = []) :
    ∃ inner last after quoted text e' skipped found', lines = inner ++ last :: after ∧
      Line.ofRaw last = .continuation quoted text ∧ goesOn after = false ∧
      e'.value = e.value ∧
      e'.keyRange = ⟨e.keyRange.start, (quoteRange (line + inner.length) last).stop⟩ ∧
      found = skipped ++ found' ∧ drafts found' = [] ∧
      (Cursor.mk .key (some e')).eventsFrom (line + inner.length + 1) after =
        found' ++ .closed b :: later := by
  obtain ⟨inner, last, after, quoted, text, rfl, hinner, hlast, hafter⟩ :=
    exists_continuations hgoes
  obtain ⟨e₁, hnext, hdrafts, hvalue, hstart⟩ := Cursor.readAll_staysInKey hinner hline
  have hbetween : Range.between e₁.keyRange.start (quoteRange (line + inner.length) last).stop =
      ⟨e.keyRange.start, (quoteRange (line + inner.length) last).stop⟩ := by
    rw [hstart, Range.between_of_line_lt]
    rw [line_stop_quoteRange]
    omega
  let e' : OpenEntry := ⟨e₁.key ++ text,
    ⟨e.keyRange.start, (quoteRange (line + inner.length) last).stop⟩, e₁.value⟩
  have hread : (Cursor.mk .key (some e₁)).read (line + inner.length) last =
      ([], ⟨.key, some e'⟩) := by
    rw [Cursor.read, hlast]
    simp only [Cursor.continuation, hbetween]
    rfl
  rw [Cursor.eventsFrom_append, hnext, Cursor.eventsFrom_cons, hread, List.nil_append] at h
  rcases append_eq_append_cons h with ⟨found', rfl, hrest⟩ | ⟨tail, hclosed⟩
  · -- no line of the key closes the entry, so it is closed by a line after them
    rw [drafts_append, hdrafts, List.nil_append] at hfound
    exact ⟨inner, last, after, quoted, text, e', _, found', rfl, hlast, hafter, hvalue, rfl, rfl,
      hfound, hrest⟩
  · rw [hclosed] at hdrafts
    simp at hdrafts

/-! ### After the key -/

/-- One line after the key: the entry is closed as it stands, or its key is carried along. -/
theorem Cursor.read_rekey {focus : Focus} {raw : List Char}
    (h : focus = .key → ∀ quoted text, Line.ofRaw raw ≠ .continuation quoted text) (e : OpenEntry)
    (line : Nat) (key : List Char) :
    (∃ next, (Cursor.mk focus (some e)).read line raw = ([.closed e], next) ∧
      (Cursor.mk focus (some { e with key := key })).read line raw =
        ([.closed { e with key := key }], next)) ∨
    ∃ found focus' value, drafts found = [] ∧ (focus' = .key → focus = .key) ∧
      (focus' = .key → goesOn [raw] = false ∧ (Line.ofRaw raw).staysInKey) ∧
      (Cursor.mk focus (some e)).read line raw =
        (found, ⟨focus', some { e with value := value }⟩) ∧
      (Cursor.mk focus (some { e with key := key })).read line raw =
        (found, ⟨focus', some { e with key := key, value := value }⟩) := by
  have hignored : Focus.ignored ≠ .key := by decide
  have hvalue : Focus.value ≠ .key := by decide
  simp only [Cursor.read, goesOn]
  cases hraw : Line.ofRaw raw with
  | blank => exact .inl ⟨_, rfl, rfl⟩
  | comment => exact .inr ⟨[], focus, e.value, rfl, id, fun _ => ⟨rfl, rfl⟩, rfl, rfl⟩
  | malformed token =>
    exact .inr ⟨_, focus, e.value, rfl, id, fun _ => ⟨rfl, rfl⟩, rfl, rfl⟩
  | unrecognized content =>
    exact .inr ⟨_, focus, e.value, rfl, id, fun _ => ⟨rfl, rfl⟩, rfl, rfl⟩
  | keyword k text =>
    cases k with
    | id => exact .inl ⟨_, rfl, rfl⟩
    | context => exact .inl ⟨_, rfl, rfl⟩
    | plural =>
      exact .inr ⟨[], .ignored, e.value, rfl, (absurd · hignored), (absurd · hignored), rfl, rfl⟩
    | value main =>
      cases main with
      | false =>
        exact .inr ⟨[], .ignored, e.value, rfl, (absurd · hignored), (absurd · hignored), rfl, rfl⟩
      | true => exact .inr ⟨[], .value, _, rfl, (absurd · hvalue), (absurd · hvalue), rfl, rfl⟩
  | continuation quoted text =>
    cases focus with
    | nothing =>
      have hnothing : Focus.nothing ≠ .key := by decide
      exact .inr ⟨_, .nothing, e.value, rfl, (absurd · hnothing), (absurd · hnothing), rfl, rfl⟩
    | ignored =>
      exact .inr ⟨[], .ignored, e.value, rfl, (absurd · hignored), (absurd · hignored), rfl, rfl⟩
    | value => exact .inr ⟨[], .value, _, rfl, (absurd · hvalue), (absurd · hvalue), rfl, rfl⟩
    | key => exact absurd hraw (h rfl quoted text)

theorem goesOn_cons_of_staysInKey {raw : List Char} {rest : List (List Char)}
    (h : (Line.ofRaw raw).staysInKey) (hraw : goesOn [raw] = false) :
    goesOn (raw :: rest) = goesOn rest := by
  rw [goesOn] at hraw ⊢
  cases hline : Line.ofRaw raw <;> simp_all [Line.staysInKey]

/-- **After its lines a key is carried along**: the entry is closed with the key and the range it
had, and with another key everything else that happens is the same. -/
theorem Cursor.eventsFrom_rekey {lines : List (List Char)} {focus : Focus} {e b : OpenEntry}
    {line : Nat} {found after : List Event} (hlines : focus = .key → goesOn lines = false)
    (h : (Cursor.mk focus (some e)).eventsFrom line lines = found ++ .closed b :: after)
    (hfound : drafts found = []) (key : List Char) :
    b.key = e.key ∧ b.keyRange = e.keyRange ∧
      (Cursor.mk focus (some { e with key := key })).eventsFrom line lines =
        found ++ .closed { b with key := key } :: after := by
  induction lines generalizing focus e line found with
  | nil =>
    have hclosing : [] ++ .closed e :: [] = found ++ .closed b :: after := h
    obtain ⟨rfl, rfl, rfl⟩ := closed_unique hclosing rfl hfound
    exact ⟨rfl, rfl, rfl⟩
  | cons raw lines ih =>
    have hraw : focus = .key → ∀ quoted text, Line.ofRaw raw ≠ .continuation quoted text := by
      intro hfocus quoted text hline
      have := hlines hfocus
      simp [goesOn, hline] at this
    rw [eventsFrom_cons] at h ⊢
    rcases read_rekey hraw e line key with ⟨next, hread, hread'⟩ |
      ⟨found₁, focus', value, hfound₁, hfocus, hstays, hread, hread'⟩
    · -- this line closes the entry, and it is the first that does
      rw [hread] at h
      rw [hread']
      have hclosing : [] ++ .closed e :: next.eventsFrom (line + 1) lines =
          found ++ .closed b :: after := h
      obtain ⟨rfl, rfl, rfl⟩ := closed_unique hclosing rfl hfound
      exact ⟨rfl, rfl, rfl⟩
    · rw [hread] at h
      rw [hread']
      rcases append_eq_append_cons h with ⟨found₂, rfl, hrest⟩ | ⟨tail, hclosed⟩
      · rw [drafts_append, hfound₁, List.nil_append] at hfound
        -- while the key could still grow, no later line goes on with it
        have hlines' : focus' = .key → goesOn lines = false := by
          intro hkey
          obtain ⟨hends, hstay⟩ := hstays hkey
          rw [← goesOn_cons_of_staysInKey hstay hends]
          exact hlines (hfocus hkey)
        obtain ⟨hkey, hrange, hevents⟩ := ih hlines' hrest hfound
        exact ⟨hkey, hrange, by rw [hevents, List.append_assoc]⟩
      · rw [show found₁ = found ++ .closed b :: tail from hclosed] at hfound₁
        simp at hfound₁

end Concord.Catalog
