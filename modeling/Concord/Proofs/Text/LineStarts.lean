import Concord.Proofs.Text.Offsets
import Mathlib.Data.List.Induction
import Mathlib.Order.Bounds.Basic

/-!
# The table of line starts

The offsets where the lines of a text begin can be listed once (`lineStarts`), and then neither
`positionAt` nor `offsetAt?` has to walk from the beginning of the text. The table increases, so a
search finds the line of a boundary: it is that of the last start which is not behind the boundary
(`positionAt_search`). A place is looked for in the piece of the text from the start of its line to
the start of the next one (`offsetAt?_eq_scan`); that piece ends with the line feed, which is why
the column behind it has an offset.
-/

namespace Concord.Text

/-- The offsets just behind the line feeds of a text that begins at an offset. -/
def startsFrom (offset : Nat) : List Char → List Nat
  | [] => []
  | c :: cs =>
    if c = '\n' then (offset + c.utf8Size) :: startsFrom (offset + c.utf8Size) cs
    else startsFrom (offset + c.utf8Size) cs

/-- The offsets where the lines of a text begin. -/
def lineStarts (text : List Char) : List Nat := 0 :: startsFrom 0 text

section Starts

variable {text : List Char} {offset n : Nat} {before after : List (List Char)} {line : List Char}

theorem startsFrom_append (offset : Nat) (cs ds : List Char) :
    startsFrom offset (cs ++ ds) = startsFrom offset cs ++ startsFrom (offset + bytes cs) ds := by
  induction cs generalizing offset with
  | nil => rfl
  | cons c cs ih =>
    rw [List.cons_append, startsFrom, startsFrom, ih, bytes_cons, Nat.add_assoc]
    split <;> rfl

theorem startsFrom_of_not_mem {cs : List Char} (h : '\n' ∉ cs) (offset : Nat) :
    startsFrom offset cs = [] := by
  induction cs generalizing offset with
  | nil => rfl
  | cons c cs ih =>
    rw [List.mem_cons, not_or] at h
    rw [startsFrom, if_neg (Ne.symm h.1), ih h.2]

theorem lt_of_mem_startsFrom (h : n ∈ startsFrom offset text) : offset < n := by
  induction text generalizing offset with
  | nil => exact absurd h List.not_mem_nil
  | cons c cs ih =>
    have hpos := c.utf8Size_pos
    rw [startsFrom] at h
    split at h
    · rcases List.mem_cons.1 h with rfl | h
      · omega
      · have hrest := ih h
        omega
    · have hrest := ih h
      omega

theorem pairwise_startsFrom (offset : Nat) (text : List Char) :
    (startsFrom offset text).Pairwise (· < ·) := by
  induction text generalizing offset with
  | nil => exact .nil
  | cons c cs ih =>
    rw [startsFrom]
    split
    · exact .cons (fun _ h => lt_of_mem_startsFrom h) (ih _)
    · exact ih _

/-- **The table increases**, so it can be searched. -/
theorem pairwise_lineStarts (text : List Char) : (lineStarts text).Pairwise (· < ·) :=
  .cons (fun _ h => lt_of_mem_startsFrom h) (pairwise_startsFrom 0 text)

theorem length_startsFrom (offset : Nat) (text : List Char) :
    (startsFrom offset text).length = text.count '\n' := by
  induction text generalizing offset with
  | nil => rfl
  | cons c cs ih =>
    rw [startsFrom, List.count_cons]
    by_cases hc : c = '\n'
    · simp [hc, ih]
    · simp [hc, ih]

/-- **There is one start for each line.** -/
theorem length_lineStarts (text : List Char) : (lineStarts text).length = lineCount text := by
  rw [lineStarts, List.length_cons, length_startsFrom, lineCount]

theorem exists_lineStarts_above (h : ∀ x ∈ before, '\n' ∉ x) :
    ∃ earlier, lineStarts (above before) = earlier ++ [bytes (above before)] ∧
      earlier.length = before.length := by
  induction before using List.reverseRecOn with
  | nil => exact ⟨[], rfl, rfl⟩
  | append_singleton ls l ih =>
    obtain ⟨earlier, hstarts, hlength⟩ := ih fun x hx => h x (List.mem_append_left _ hx)
    have hl : '\n' ∉ l := h l (List.mem_append_right _ List.mem_cons_self)
    refine ⟨earlier ++ [bytes (above ls)], ?_, by rw [List.length_append, hlength]; simp⟩
    rw [above_append, lineStarts, startsFrom_append, ← List.cons_append, ← lineStarts, hstarts,
      above_cons, above_nil, startsFrom_append, startsFrom_of_not_mem hl, List.nil_append,
      startsFrom, if_pos rfl, startsFrom, bytes_append, bytes_append, bytes_cons, bytes_nil]
    simp [Nat.add_assoc]

/-- **The starts around a line**: as many as there are lines before it, its own, and those behind
the line feeds that follow it. -/
theorem exists_lineStarts_of_lines (h : lines text = before ++ line :: after) :
    ∃ earlier, earlier.length = before.length ∧
      lineStarts text = earlier ++ bytes (above before) ::
        startsFrom (bytes (above before ++ line)) (below after) := by
  obtain ⟨hbefore, hline, -⟩ := newline_not_mem_of_lines h
  obtain ⟨earlier, hstarts, hlength⟩ := exists_lineStarts_above hbefore
  refine ⟨earlier, hlength, ?_⟩
  rw [eq_of_lines h, lineStarts, startsFrom_append, startsFrom_append, startsFrom_of_not_mem hline,
    List.nil_append, ← List.cons_append, ← lineStarts, hstarts, List.append_assoc, Nat.zero_add,
    bytes_append, List.singleton_append]

/-! ### Searching the table -/

/-- **The place of a boundary**: its line is that of the last start which is not behind it, and its
column is the number of UTF-16 code units from there. -/
theorem positionAt_search (h : IsBoundary text n) :
    ∃ start, (lineStarts text)[(positionAt text n).line]? = some start ∧
      IsGreatest {s | s ∈ lineStarts text ∧ s ≤ n} start ∧
      (positionAt text n).column = units16 (slice start n text) := by
  obtain ⟨cs, ds, rfl, rfl⟩ := h
  obtain ⟨ls, l, hcs⟩ := exists_lines_eq_concat cs
  obtain ⟨m, ms, hds⟩ := exists_lines_eq_cons ds
  obtain ⟨earlier, hlength, hstarts⟩ := exists_lineStarts_of_lines (lines_append_of_lines hcs hds)
  have hcut : cs = above ls ++ l := by
    rw [eq_of_lines hcs, below_nil, List.append_nil]
  have hbytes : bytes cs = bytes (above ls) + bytes l := by rw [hcut, bytes_append]
  rw [positionAt_bytes_append, endFrom_of_lines hcs]
  refine ⟨bytes (above ls), ?_, ⟨⟨?_, ?_⟩, ?_⟩, ?_⟩
  · rw [hstarts, ← hlength, List.getElem?_append_right (Nat.le_refl _), Nat.sub_self]
    rfl
  · rw [hstarts]
    exact List.mem_append_right _ List.mem_cons_self
  · omega
  · rintro s ⟨hs, hle⟩
    have hincreasing := pairwise_lineStarts (cs ++ ds)
    rw [hstarts] at hs hincreasing
    rcases List.mem_append.1 hs with hs | hs
    · exact Nat.le_of_lt ((List.pairwise_append.1 hincreasing).2.2 s hs _ List.mem_cons_self)
    · rcases List.mem_cons.1 hs with rfl | hs
      · exact Nat.le_refl _
      · -- the starts after the line lie behind all of it
        have hbehind := lt_of_mem_startsFrom hs
        simp only [bytes_append] at hbehind
        omega
  · rw [hbytes, hcut, List.append_assoc, slice_bytes_append]

/-! ### Walking along a line -/

/-- The offset of a column, walking along a piece of text that begins at an offset, when some UTF-16
code units of its line have been passed. -/
def scan (column offset units : Nat) : List Char → Option Nat
  | [] => if units = column then some offset else none
  | c :: cs =>
    if units = column then some offset
    else if column < units then none
    else scan column (offset + c.utf8Size) (units + charUnits16 c) cs

theorem scan_self (column offset : Nat) (cs : List Char) :
    scan column offset column cs = some offset := by
  cases cs with
  | nil => exact if_pos rfl
  | cons c cs => exact if_pos rfl

theorem scan_of_lt {column units : Nat} (h : column < units) (offset : Nat) (cs : List Char) :
    scan column offset units cs = none := by
  cases cs with
  | nil => exact if_neg (Nat.ne_of_gt h)
  | cons c cs => rw [scan, if_neg (Nat.ne_of_gt h), if_pos h]

/-- Along a line, both walks go on to what follows it. -/
theorem scan_append {tail rest : List Char} (hline : '\n' ∉ line)
    (htail : ∀ column offset units, scan (units + column) offset units tail =
      columnFrom offset column rest) (column offset units : Nat) :
    scan (units + column) offset units (line ++ tail) =
      columnFrom offset column (line ++ rest) := by
  induction line generalizing column offset units with
  | nil => exact htail column offset units
  | cons c cs ih =>
    rw [List.mem_cons, not_or] at hline
    cases column with
    | zero => rw [Nat.add_zero, scan_self, columnFrom_zero]
    | succ column =>
      rw [List.cons_append, List.cons_append, scan, if_neg (by omega), if_neg (by omega),
        columnFrom, if_neg (Ne.symm hline.1)]
      split
      · next hfits =>
        rw [← ih hline.2]
        congr 1
        omega
      · exact scan_of_lt (by omega) _ _

/-- What a line is walked along with: the line feed behind it, unless it is the last one. The next
line starts behind that. -/
theorem exists_tail (after : List (List Char)) (offset : Nat) :
    ∃ tail rest, below after = tail ++ rest ∧
      (startsFrom offset (below after))[0]?.getD (offset + bytes (below after)) =
        offset + bytes tail ∧
      ∀ column offset units, scan (units + column) offset units tail =
        columnFrom offset column (below after) := by
  cases after with
  | nil =>
    refine ⟨[], [], rfl, rfl, fun column offset units => ?_⟩
    cases column with
    | zero => rw [Nat.add_zero, scan_self, columnFrom_zero]
    | succ column => exact if_neg (by omega)
  | cons next after =>
    rw [below_cons]
    refine ⟨['\n'], next ++ below after, rfl, ?_, fun column offset units => ?_⟩
    · rw [startsFrom, if_pos rfl]
      rfl
    · cases column with
      | zero => rw [Nat.add_zero, scan_self, columnFrom_zero]
      | succ column =>
        have hfeed : charUnits16 '\n' = 1 := rfl
        rw [scan, if_neg (by omega), if_neg (by omega), columnFrom, if_pos rfl, scan, hfeed]
        by_cases hcolumn : column = 0
        · rw [if_pos (by omega), if_pos hcolumn]
        · rw [if_neg (by omega), if_neg hcolumn]

/-- A text has no more lines than it has line feeds to walk over. -/
theorem lineFrom_eq_none (h : text.count '\n' < n) (offset : Nat) :
    lineFrom offset n text = none := by
  induction text generalizing offset n with
  | nil =>
    cases n with
    | zero => exact absurd h (Nat.not_lt_zero _)
    | succ n => rfl
  | cons c cs ih =>
    cases n with
    | zero => exact absurd h (Nat.not_lt_zero _)
    | succ n =>
      rw [List.count_cons] at h
      rw [lineFrom]
      split
      · next hc => exact ih (by simpa [hc] using h) _
      · next hc => exact ih (by simpa [hc] using h) _

/-- **The offset of a place** is found between the start of its line and that of the next one. -/
theorem offsetAt?_eq_scan (text : List Char) (p : Position) :
    offsetAt? text p = (lineStarts text)[p.line]?.bind fun start =>
      scan p.column start 0
        (slice start ((lineStarts text)[p.line + 1]?.getD (bytes text)) text) := by
  rcases Nat.lt_or_ge p.line (lines text).length with hline | hline
  · obtain ⟨before, line, after, hlines, hlength⟩ := exists_line hline
    obtain ⟨hbefore, hfeed, -⟩ := newline_not_mem_of_lines hlines
    obtain ⟨earlier, hearlier, hstarts⟩ := exists_lineStarts_of_lines hlines
    obtain ⟨tail, rest, hbelow, hnext, htail⟩ :=
      exists_tail after (bytes (above before ++ line))
    have htext := eq_of_lines hlines
    have hstart : (lineStarts text)[p.line]? = some (bytes (above before)) := by
      rw [hstarts, ← hlength, ← hearlier, List.getElem?_append_right (Nat.le_refl _), Nat.sub_self]
      rfl
    have htotal : bytes text = bytes (above before ++ line) + bytes (below after) := by
      rw [htext, ← List.append_assoc, bytes_append]
    have hstop : (lineStarts text)[p.line + 1]?.getD (bytes text) =
        bytes (above before) + bytes (line ++ tail) := by
      rw [hstarts, ← hlength, ← hearlier, List.getElem?_append_right (Nat.le_add_right _ _),
        Nat.add_sub_cancel_left, List.getElem?_cons_succ, htotal, hnext, ← bytes_append,
        ← bytes_append, List.append_assoc]
    have hpiece : slice (bytes (above before)) (bytes (above before) + bytes (line ++ tail)) text =
        line ++ tail := by
      rw [htext, hbelow, ← List.append_assoc line, slice_bytes_append]
    rw [hstart, hstop, Option.bind_some, hpiece]
    have hwalk := scan_append hfeed htail p.column (bytes (above before)) 0
    rw [Nat.zero_add] at hwalk
    rw [hwalk, offsetAt?, ← hlength, htext, lineFrom_above hbefore, Nat.zero_add]
  · rw [length_lines, lineCount] at hline
    have hstart : (lineStarts text)[p.line]? = none := by
      rw [List.getElem?_eq_none_iff, length_lineStarts, lineCount]
      exact hline
    rw [hstart, offsetAt?, lineFrom_eq_none hline]
    rfl

end Starts

end Concord.Text
