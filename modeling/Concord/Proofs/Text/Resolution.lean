import Concord.Proofs.Edit.Applied
import Concord.Proofs.Text.LineStarts

/-!
# Which places have an offset

A place lies in a text when its line exists and its column is at an end of the line or between two
of its characters (`IsPlace`). Otherwise it is off the lines of the text: there is no such line, or
the column lies past the end of the line, or inside a surrogate pair (`OffLine`, `offLine_iff`).

The places in a text have an offset and are the places of their offsets. Of the places off its
lines, one kind has an offset too: the column just behind the line feed that ends a line, which
stands for the beginning of the next line (`BehindFeed`, `cases_of_offsetAt?`). So a place is
recovered from its offset exactly when it is not of that kind, and all other places off the lines
are refused, also as an end of an edit (`offsetAt?_exact`).
-/

namespace Concord.Text

/-! ### Places in lines and off them -/

/-- Whether a place lies in one of some lines: at one of its ends or between two of its
characters. -/
def IsPlace (ls : List (List Char)) (p : Position) : Prop :=
  ∃ before pre rest after, ls = before ++ (pre ++ rest) :: after ∧ p = ⟨before.length, units16 pre⟩

/-- Whether a place is just behind the line feed that ends a line: one column past the end of a line
that is not the last one. -/
def BehindFeed (ls : List (List Char)) (p : Position) : Prop :=
  ∃ before line next after,
    ls = before ++ line :: next :: after ∧ p = ⟨before.length, units16 line + 1⟩

/-- The places that lie in none of some lines. -/
inductive OffLine (ls : List (List Char)) (p : Position) : Prop
  /-- There is no such line. -/
  | noLine (hline : ls.length ≤ p.line)
  /-- The column lies past the end of the line. -/
  | pastEnd (before : List (List Char)) (line : List Char) (after : List (List Char))
    (hls : ls = before ++ line :: after) (hline : p.line = before.length)
    (hcolumn : units16 line < p.column)
  /-- The column lies between the two units of a character. -/
  | insidePair (before : List (List Char)) (pre : List Char) (c : Char) (rest : List Char)
    (after : List (List Char)) (hls : ls = before ++ (pre ++ c :: rest) :: after)
    (hpair : charUnits16 c = 2) (hp : p = ⟨before.length, units16 pre + 1⟩)

section Places

variable {ls : List (List Char)} {text : List Char} {p q : Position} {n : Nat}

/-- The line of a number is determined by the number. -/
theorem line_unique {before before' after after' : List (List Char)} {line line' : List Char}
    (h : before ++ line :: after = before' ++ line' :: after')
    (hlength : before.length = before'.length) : line = line' ∧ after = after' := by
  obtain ⟨-, htail⟩ := List.append_inj h hlength
  exact List.cons.inj htail

theorem charUnits16_le (c : Char) : charUnits16 c ≤ 2 := by
  rw [charUnits16]
  split <;> omega

/-- A number of units that a text has is where a beginning of it ends, or it cuts a surrogate
pair. -/
theorem exists_append_of_le_units16 {line : List Char} {column : Nat}
    (h : column ≤ units16 line) :
    (∃ pre rest, line = pre ++ rest ∧ units16 pre = column) ∨
      ∃ pre c rest, line = pre ++ c :: rest ∧ charUnits16 c = 2 ∧ column = units16 pre + 1 := by
  induction line generalizing column with
  | nil => exact .inl ⟨[], [], rfl, (Nat.le_zero.1 h).symm⟩
  | cons c cs ih =>
    rw [units16_cons] at h
    have hlow := charUnits16_pos c
    have hhigh := charUnits16_le c
    rcases Nat.lt_or_ge column (charUnits16 c) with hlt | hge
    · rcases Nat.eq_zero_or_pos column with rfl | hpos
      · exact .inl ⟨[], c :: cs, rfl, rfl⟩
      · exact .inr ⟨[], c, cs, rfl, by omega, by rw [units16_nil]; omega⟩
    · have hrest : column - charUnits16 c ≤ units16 cs := by omega
      rcases ih hrest with ⟨pre, rest, rfl, hpre⟩ | ⟨pre, d, rest, rfl, hpair, hpre⟩
      · refine .inl ⟨c :: pre, rest, rfl, ?_⟩
        rw [units16_cons]
        omega
      · refine .inr ⟨c :: pre, d, rest, rfl, hpair, ?_⟩
        rw [units16_cons]
        omega

/-- No beginning of a text ends inside a surrogate pair. -/
theorem units16_ne_of_pair {pre pre' rest rest' : List Char} {c : Char}
    (h : pre ++ rest = pre' ++ c :: rest') (hpair : charUnits16 c = 2) :
    units16 pre ≠ units16 pre' + 1 := by
  intro hunits
  rcases List.append_eq_append_iff.1 h with ⟨ds, rfl, -⟩ | ⟨ds, rfl, hds⟩
  · rw [units16_append] at hunits
    omega
  · cases ds with
    | nil =>
      rw [List.append_nil] at hunits
      omega
    | cons d ds =>
      obtain ⟨rfl, -⟩ := List.cons.inj hds
      rw [units16_append, units16_cons] at hunits
      omega

/-- **The places off some lines are those that lie in none of them.** -/
theorem offLine_iff : OffLine ls p ↔ ¬ IsPlace ls p := by
  constructor
  · rintro hoff ⟨before, pre, rest, after, rfl, rfl⟩
    cases hoff with
    | noLine hline =>
      rw [List.length_append, List.length_cons] at hline
      dsimp only at hline
      omega
    | pastEnd before' line' after' hls hline hcolumn =>
      obtain ⟨rfl, -⟩ := line_unique hls hline
      rw [units16_append] at hcolumn
      dsimp only at hcolumn
      omega
    | insidePair before' pre' c rest' after' hls hpair hp =>
      obtain ⟨hlength, hunits⟩ := Position.mk.inj hp
      exact units16_ne_of_pair (line_unique hls hlength).1 hpair hunits
  · intro hnot
    rcases Nat.lt_or_ge p.line ls.length with hline | hline
    · obtain ⟨before, line, after, rfl, hlength⟩ := exists_line hline
      rcases Nat.lt_or_ge (units16 line) p.column with hcolumn | hcolumn
      · exact .pastEnd before line after rfl hlength.symm hcolumn
      · rcases exists_append_of_le_units16 hcolumn with
          ⟨pre, rest, rfl, hpre⟩ | ⟨pre, c, rest, rfl, hpair, hpre⟩
        · exact absurd ⟨before, pre, rest, after, rfl, by rw [hlength, hpre]⟩ hnot
        · exact .insidePair before pre c rest after rfl hpair (by rw [hlength, ← hpre])
    · exact .noLine hline

/-- Just behind a line feed is past the end of a line. -/
theorem BehindFeed.offLine (h : BehindFeed ls p) : OffLine ls p := by
  obtain ⟨before, line, next, after, rfl, rfl⟩ := h
  exact .pastEnd before line (next :: after) rfl rfl (Nat.lt_succ_self _)

/-! ### Places with an offset -/

theorem IsPlace.isSome_offsetAt? (h : IsPlace (lines text) p) : (offsetAt? text p).isSome := by
  obtain ⟨before, pre, rest, after, hlines, rfl⟩ := h
  rw [offsetAt?_of_lines hlines]
  rfl

/-- **Just behind a line feed** is the offset of the beginning of the next line. -/
theorem BehindFeed.offsetAt?_eq (h : BehindFeed (lines text) p) :
    (offsetAt? text p).isSome ∧ offsetAt? text p = offsetAt? text ⟨p.line + 1, 0⟩ := by
  obtain ⟨before, line, next, after, hlines, rfl⟩ := h
  obtain ⟨hbefore, hline, -⟩ := newline_not_mem_of_lines hlines
  have hnext : lines text = (before ++ [line]) ++ ([] ++ next) :: after := by
    rw [hlines, List.append_assoc, List.nil_append, List.singleton_append]
  have hbegin := offsetAt?_of_lines hnext
  rw [List.length_append, List.length_singleton, units16_nil, List.append_nil] at hbegin
  have htext : text = above before ++ (line ++ '\n' :: (next ++ below after)) := by
    rw [eq_of_lines hlines, below_cons]
  have hfeed : offsetAt? text ⟨before.length, units16 line + 1⟩ =
      some (bytes (above (before ++ [line]))) := by
    rw [htext, offsetAt?, lineFrom_above hbefore]
    dsimp only
    rw [columnFrom_append hline, columnFrom, if_pos rfl, if_pos rfl]
    simp [Nat.add_assoc]
  exact ⟨by rw [hfeed]; rfl, hfeed.trans hbegin.symm⟩

/-- **A place with an offset** is the place of that offset, or it is just behind a line feed and its
offset has the place after that. -/
theorem cases_of_offsetAt? (h : offsetAt? text p = some n) :
    IsPlace (lines text) p ∧ positionAt text n = p ∨
      BehindFeed (lines text) p ∧ positionAt text n = ⟨p.line + 1, 0⟩ := by
  obtain ⟨cs, rest, rfl, rfl, hends⟩ := exists_endsAt_of_offsetAt? h
  rw [positionAt_bytes_append]
  cases hends with
  | end_ =>
    refine .inl ⟨?_, rfl⟩
    obtain ⟨ls, l, hlines⟩ := exists_lines_eq_concat cs
    obtain ⟨m, ms, hrest⟩ := exists_lines_eq_cons rest
    exact ⟨ls, l, m, ms, lines_append_of_lines hlines hrest, endFrom_of_lines hlines⟩
  | afterFeed cs =>
    refine .inr ⟨?_, ?_⟩
    · obtain ⟨ls, l, hlines⟩ := exists_lines_eq_concat cs
      obtain ⟨m, ms, hrest⟩ := exists_lines_eq_cons rest
      refine ⟨ls, l, m, ms, ?_, by rw [endFrom_of_lines hlines]⟩
      rw [List.append_assoc, List.singleton_append, lines_append, hlines, hrest, List.append_assoc,
        List.singleton_append]
    · rw [endFrom_append, endFrom_cons, endFrom_nil, advance, if_pos rfl]

/-- **A place has an offset** exactly when it lies in the text or is just behind a line feed. -/
theorem isSome_offsetAt?_iff :
    (offsetAt? text p).isSome ↔ IsPlace (lines text) p ∨ BehindFeed (lines text) p := by
  constructor
  · intro h
    obtain ⟨n, hn⟩ := Option.isSome_iff_exists.1 h
    exact (cases_of_offsetAt? hn).imp And.left And.left
  · rintro (h | h)
    · exact h.isSome_offsetAt?
    · exact h.offsetAt?_eq.1

/-- **A place is recovered from its offset**, unless it is just behind a line feed. -/
theorem positionAt_eq_iff (h : offsetAt? text p = some n) :
    positionAt text n = p ↔ ¬ BehindFeed (lines text) p := by
  rcases cases_of_offsetAt? h with ⟨hplace, heq⟩ | ⟨hfeed, heq⟩
  · exact ⟨fun _ hfeed => offLine_iff.1 hfeed.offLine hplace, fun _ => heq⟩
  · refine ⟨fun hp => ?_, fun hnot => absurd hfeed hnot⟩
    rw [heq] at hp
    exact absurd (congrArg Position.line hp) (Nat.succ_ne_self _)

end Places

/-! ### What has an offset -/

/-- Which places of a text have an offset, and which of them are recovered from it. -/
structure Resolution (text : List Char) : Prop where
  /-- The offset of a place is found by walking along its line, from the start of that line to the
  start of the next one. -/
  scan (p : Position) : offsetAt? text p = (lineStarts text)[p.line]?.bind fun start =>
    Text.scan p.column start 0
      (slice start ((lineStarts text)[p.line + 1]?.getD (bytes text)) text)
  /-- A place is recovered from its offset exactly when it is not just behind a line feed. -/
  recovered_iff (p : Position) (n : Nat) : offsetAt? text p = some n →
    (positionAt text n = p ↔ ¬ BehindFeed (lines text) p)
  /-- There is no offset where there is no such line, past the end of a line and inside a surrogate
  pair, but for the places just behind a line feed. -/
  none_iff (p : Position) : offsetAt? text p = none ↔
    OffLine (lines text) p ∧ ¬ BehindFeed (lines text) p
  /-- Those lie past the end of their line and have the offset where the next line begins. -/
  behindFeed (p : Position) : BehindFeed (lines text) p → OffLine (lines text) p ∧
    (offsetAt? text p).isSome ∧ offsetAt? text p = offsetAt? text ⟨p.line + 1, 0⟩
  /-- Of two places with one offset, one is just behind a line feed. -/
  shared (p q : Position) (n : Nat) : p ≠ q → offsetAt? text p = some n →
    offsetAt? text q = some n → BehindFeed (lines text) p ∨ BehindFeed (lines text) q
  /-- Edits that have an end without an offset are refused. -/
  refused (edits : List TextEdit) (e : TextEdit) : e ∈ edits →
    offsetAt? text e.range.start = none ∨ offsetAt? text e.range.stop = none →
      ∃ d ∈ edits, applyEdits text edits = .error (.outside d.range)

/-- **The places with an offset** are those in the text and those just behind a line feed, and the
former are the ones that are recovered. -/
theorem offsetAt?_exact (text : List Char) : Resolution text where
  scan p := offsetAt?_eq_scan text p
  recovered_iff _ _ h := positionAt_eq_iff h
  none_iff p := by
    rw [← Option.not_isSome_iff_eq_none, isSome_offsetAt?_iff, not_or, offLine_iff]
  behindFeed _ h := ⟨h.offLine, h.offsetAt?_eq⟩
  shared p q n hne hp hq := by
    by_contra hnot
    rw [not_or] at hnot
    exact hne (((positionAt_eq_iff hp).2 hnot.1).symm.trans ((positionAt_eq_iff hq).2 hnot.2))
  refused _ _ he hnone := exists_applyEdits_eq_outside he hnone

/-- The column just behind a line feed has an offset, which is that of another place, and an edit up
to there joins the line with the next one. -/
theorem offsetAt?_accepts_behindFeed :
    offsetAt? "ab\ncd".toList ⟨0, 3⟩ = some 3 ∧
    positionAt "ab\ncd".toList 3 ≠ ⟨0, 3⟩ ∧
    offsetAt? "ab\ncd".toList ⟨1, 0⟩ = some 3 ∧
    applyEdits "ab\ncd".toList [⟨.between ⟨0, 2⟩ ⟨0, 3⟩, ""⟩] = .ok "abcd".toList := by
  have hmade : applyEdits (['a', 'b'] ++ (['\n'] ++ ['c', 'd'])) [⟨.between ⟨0, 2⟩ ⟨0, 3⟩, ""⟩] =
      .ok (['a', 'b'] ++ ([] ++ ['c', 'd'])) :=
    applyEdits_singleton "" (by decide) (by decide)
  exact ⟨by decide, by decide, by decide, hmade⟩

end Concord.Text
