import Concord.Edit.Splice
import Mathlib.Data.List.Basic

/-!
# Lines and places in a text

A text with a line singled out is `above before ++ line ++ below after`: each line before it ends
with its line feed, each line after it begins with one. In this form cutting into lines
(`Text.lines_above_append_below`) and resolving positions (`Text.offsetAt?_above`) are equations
without indices, and an edit whose ends are known as beginnings of the text is a replacement of one
piece of it (`applyEdits_singleton`).
-/

namespace Concord

/-! ### The order of places -/

theorem Position.lt_iff {p q : Position} :
    p < q ↔ p.line < q.line ∨ p.line = q.line ∧ p.column < q.column := by
  change compareLex (compareOn Position.line) (compareOn Position.column) p q = .lt ↔ _
  rw [compareLex, Ordering.then_eq_lt]
  simp only [compareOn, Nat.compare_eq_lt, Nat.compare_eq_eq]

/-- Two places on one line, in order. -/
theorem Range.between_of_column_le {line start stop : Nat} (h : start ≤ stop) :
    Range.between ⟨line, start⟩ ⟨line, stop⟩ = ⟨⟨line, start⟩, ⟨line, stop⟩⟩ := by
  rw [between, if_neg]
  rw [Position.lt_iff]
  dsimp only
  omega

/-- Two places on different lines, in order. -/
theorem Range.between_of_line_lt {p q : Position} (h : p.line < q.line) :
    Range.between p q = ⟨p, q⟩ := by
  rw [between, if_neg]
  rw [Position.lt_iff]
  omega

namespace Text

/-! ### Lines -/

/-- Some lines, each with the line feed that ends it. -/
def above (ls : List (List Char)) : List Char := ls.flatMap fun l => l ++ ['\n']

/-- Some lines, each with the line feed that ends the line before it. -/
def below (ls : List (List Char)) : List Char := ls.flatMap fun l => '\n' :: l

@[simp] theorem above_nil : above [] = [] := rfl

@[simp] theorem above_cons (l : List Char) (ls : List (List Char)) :
    above (l :: ls) = l ++ '\n' :: above ls := by
  simp [above]

@[simp] theorem above_append (ls ls' : List (List Char)) :
    above (ls ++ ls') = above ls ++ above ls' :=
  List.flatMap_append

@[simp] theorem below_nil : below [] = [] := rfl

@[simp] theorem below_cons (l : List Char) (ls : List (List Char)) :
    below (l :: ls) = '\n' :: (l ++ below ls) := by
  simp [below]

/-- Lines are what `List.splitOn` gives. -/
theorem lines_eq_splitOn (text : List Char) : lines text = text.splitOn '\n' := by
  induction text with
  | nil => rfl
  | cons c cs ih =>
    rw [List.splitOn_cons_eq_if_modifyHead, lines, ih]
    by_cases hc : c = '\n'
    · simp [hc]
    · cases hcs : cs.splitOn '\n' with
      | nil => exact absurd hcs (List.splitOn_ne_nil _ _)
      | cons l ls => simp [hc]

theorem not_mem_of_mem_lines {text l : List Char} (h : l ∈ lines text) : '\n' ∉ l := by
  induction text generalizing l with
  | nil =>
    rw [lines, List.mem_singleton] at h
    simp [h]
  | cons c cs ih =>
    rw [lines] at h
    split at h
    · rcases List.mem_cons.1 h with rfl | h
      · exact List.not_mem_nil
      · exact ih h
    · next hc =>
      cases hcs : lines cs with
      | nil => exact absurd (lines_eq_splitOn cs ▸ hcs) (List.splitOn_ne_nil _ _)
      | cons l' ls =>
        rw [hcs] at h ih
        rcases List.mem_cons.1 h with rfl | h
        · rw [List.mem_cons, not_or]
          exact ⟨fun he => hc he.symm, ih List.mem_cons_self⟩
        · exact ih (List.mem_cons_of_mem _ h)

theorem lines_append_newline {l : List Char} (hl : '\n' ∉ l) (rest : List Char) :
    lines (l ++ '\n' :: rest) = l :: lines rest := by
  rw [lines_eq_splitOn, lines_eq_splitOn, List.splitOn_append_cons_self_of_not_mem hl]

/-- A line feed ends a line, wherever it stands. -/
theorem lines_append (text rest : List Char) :
    lines (text ++ '\n' :: rest) = lines text ++ lines rest := by
  rw [lines_eq_splitOn, lines_eq_splitOn, lines_eq_splitOn, List.splitOn_append_cons_self]

theorem length_lines (text : List Char) : (lines text).length = lineCount text := by
  induction text with
  | nil => rfl
  | cons c cs ih =>
    rw [lineCount, lines_eq_splitOn] at ih ⊢
    rw [List.splitOn_cons_eq_if_modifyHead, List.count_cons]
    split
    · rw [List.length_cons, ih]
    · rw [List.length_modifyHead, ih]

theorem lines_append_below {l : List Char} (hl : '\n' ∉ l) {ls : List (List Char)}
    (hls : ∀ x ∈ ls, '\n' ∉ x) : lines (l ++ below ls) = l :: ls := by
  induction ls generalizing l with
  | nil => rw [below_nil, List.append_nil, lines_eq_splitOn, List.splitOn_eq_singleton hl]
  | cons l' ls ih =>
    rw [below_cons, lines_append_newline hl, ih (hls l' List.mem_cons_self)]
    exact fun x hx => hls x (List.mem_cons_of_mem _ hx)

theorem lines_above_append {before : List (List Char)} (h : ∀ x ∈ before, '\n' ∉ x)
    (rest : List Char) : lines (above before ++ rest) = before ++ lines rest := by
  induction before with
  | nil => rfl
  | cons l ls ih =>
    rw [above_cons, List.append_assoc, List.cons_append,
      lines_append_newline (h l List.mem_cons_self),
      ih fun x hx => h x (List.mem_cons_of_mem _ hx), List.cons_append]

/-- **The lines of a text put together from lines are those lines.** -/
theorem lines_above_append_below {before after : List (List Char)} {l : List Char}
    (hbefore : ∀ x ∈ before, '\n' ∉ x) (hl : '\n' ∉ l) (hafter : ∀ x ∈ after, '\n' ∉ x) :
    lines (above before ++ (l ++ below after)) = before ++ l :: after := by
  rw [lines_above_append hbefore, lines_append_below hl hafter]

theorem intercalate_newline (before : List (List Char)) (l : List Char)
    (after : List (List Char)) :
    ['\n'].intercalate (before ++ l :: after) = above before ++ (l ++ below after) := by
  induction before generalizing l with
  | nil =>
    induction after generalizing l with
    | nil => simp
    | cons l' ls ih =>
      rw [List.nil_append, List.intercalate_cons_cons, ← List.nil_append (l' :: ls), ih]
      simp
  | cons b bs ih =>
    rw [List.cons_append, List.intercalate_cons_of_ne_nil (by simp), ih]
    simp

/-- **A text is put together from its lines**, around any one of them. -/
theorem eq_of_lines {text : List Char} {before after : List (List Char)} {l : List Char}
    (h : lines text = before ++ l :: after) : text = above before ++ (l ++ below after) := by
  rw [← intercalate_newline, ← h, lines_eq_splitOn, List.intercalate_splitOn]

/-- The line of a number, among some lines. -/
theorem exists_line {ls : List (List Char)} {n : Nat} (h : n < ls.length) :
    ∃ before line after, ls = before ++ line :: after ∧ before.length = n := by
  refine ⟨ls.take n, ls[n], ls.drop (n + 1), ?_, List.length_take_of_le (Nat.le_of_lt h)⟩
  rw [List.getElem_cons_drop, List.take_append_drop]

theorem exists_lines_eq_cons (text : List Char) : ∃ l ls, lines text = l :: ls :=
  List.exists_cons_of_ne_nil (lines_eq_splitOn text ▸ List.splitOn_ne_nil _ _)

theorem exists_lines_eq_concat (text : List Char) : ∃ ls l, lines text = ls ++ [l] := by
  have hne : lines text ≠ [] := lines_eq_splitOn text ▸ List.splitOn_ne_nil _ _
  exact ⟨(lines text).dropLast, (lines text).getLast hne, (List.dropLast_concat_getLast hne).symm⟩

/-- No line of a text holds a line feed: neither one of them nor those around it. -/
theorem newline_not_mem_of_lines {text : List Char} {before after : List (List Char)}
    {l : List Char} (h : lines text = before ++ l :: after) :
    (∀ x ∈ before, '\n' ∉ x) ∧ '\n' ∉ l ∧ ∀ x ∈ after, '\n' ∉ x := by
  have hall : ∀ x ∈ before ++ l :: after, '\n' ∉ x := fun x hx => not_mem_of_mem_lines (h ▸ hx)
  exact ⟨fun x hx => hall x (List.mem_append_left _ hx),
    hall l (List.mem_append_right _ List.mem_cons_self),
    fun x hx => hall x (List.mem_append_right _ (List.mem_cons_of_mem _ hx))⟩

/-- **Where two texts meet**, the last line of the one goes on with the first line of the other. -/
theorem lines_append_of_lines {text rest l m : List Char} {ls ms : List (List Char)}
    (h : lines text = ls ++ [l]) (hrest : lines rest = m :: ms) :
    lines (text ++ rest) = ls ++ (l ++ m) :: ms := by
  obtain ⟨hls, hl, -⟩ := newline_not_mem_of_lines h
  have hrest' : lines rest = [] ++ m :: ms := hrest
  obtain ⟨-, hm, hms⟩ := newline_not_mem_of_lines hrest'
  have htext : text = above ls ++ l := by
    rw [eq_of_lines h, below_nil, List.append_nil]
  have hrest'' : rest = m ++ below ms := eq_of_lines hrest'
  have hjoined : '\n' ∉ l ++ m := by
    rw [List.mem_append, not_or]
    exact ⟨hl, hm⟩
  rw [htext, hrest'', List.append_assoc, ← List.append_assoc l,
    lines_above_append_below hls hjoined hms]

/-! ### Places -/

theorem charUnits16_pos (c : Char) : 0 < charUnits16 c := by
  rw [charUnits16]
  split <;> omega

theorem lineFrom_append_newline {l : List Char} (hl : '\n' ∉ l) (offset n : Nat)
    (rest : List Char) :
    lineFrom offset (n + 1) (l ++ '\n' :: rest) =
      lineFrom (offset + bytes (l ++ ['\n'])) n rest := by
  induction l generalizing offset with
  | nil => simp [lineFrom]
  | cons c cs ih =>
    rw [List.mem_cons, not_or] at hl
    rw [List.cons_append, lineFrom, if_neg (Ne.symm hl.1), ih hl.2, List.cons_append, bytes_cons,
      Nat.add_assoc]

/-- Walking over whole lines leads to what follows them. -/
theorem lineFrom_above {before : List (List Char)} (h : ∀ x ∈ before, '\n' ∉ x) (offset : Nat)
    (rest : List Char) :
    lineFrom offset before.length (above before ++ rest) =
      some (offset + bytes (above before), rest) := by
  induction before generalizing offset with
  | nil => simp [lineFrom]
  | cons l ls ih =>
    rw [above_cons, List.append_assoc, List.cons_append, List.length_cons,
      lineFrom_append_newline (h l List.mem_cons_self),
      ih fun x hx => h x (List.mem_cons_of_mem _ hx)]
    simp [Nat.add_assoc]

@[simp] theorem columnFrom_zero (offset : Nat) (line : List Char) :
    columnFrom offset 0 line = some offset := by
  cases line <;> rfl

/-- Walking over some characters of a line leads to what follows them. -/
theorem columnFrom_append {p : List Char} (hp : '\n' ∉ p) (offset column : Nat)
    (rest : List Char) :
    columnFrom offset (units16 p + column) (p ++ rest) =
      columnFrom (offset + bytes p) column rest := by
  induction p generalizing offset with
  | nil => rw [units16_nil, bytes_nil, Nat.zero_add, Nat.add_zero, List.nil_append]
  | cons c cs ih =>
    rw [List.mem_cons, not_or] at hp
    -- every character counts at least once, so the walk does not stop before `c`
    obtain ⟨k, hk⟩ : ∃ k, charUnits16 c = k + 1 :=
      ⟨_, (Nat.succ_pred_eq_of_pos (charUnits16_pos c)).symm⟩
    have hcolumn : units16 (c :: cs) + column = (k + units16 cs + column) + 1 := by
      rw [units16_cons, hk]
      omega
    rw [hcolumn, List.cons_append, columnFrom, if_neg (Ne.symm hp.1), if_pos (by omega),
      show k + units16 cs + column + 1 - charUnits16 c = units16 cs + column by omega, ih hp.2,
      bytes_cons, Nat.add_assoc]

/-- **A position inside a line resolves** to the end of what precedes it. -/
theorem offsetAt?_above {before : List (List Char)} (h : ∀ x ∈ before, '\n' ∉ x) {p : List Char}
    (hp : '\n' ∉ p) (rest : List Char) :
    offsetAt? (above before ++ (p ++ rest)) ⟨before.length, units16 p⟩ =
      some (bytes (above before ++ p)) := by
  have hcolumn := columnFrom_append hp (0 + bytes (above before)) 0 rest
  rw [Nat.add_zero, columnFrom_zero, Nat.zero_add, ← bytes_append] at hcolumn
  rw [offsetAt?, lineFrom_above h, Nat.zero_add]
  exact hcolumn

/-- The position after the beginning `p` of a line, in a text given by its lines. -/
theorem offsetAt?_of_lines {text p rest : List Char} {before after : List (List Char)}
    (h : lines text = before ++ (p ++ rest) :: after) :
    offsetAt? text ⟨before.length, units16 p⟩ = some (bytes (above before ++ p)) := by
  obtain ⟨hbefore, hline, -⟩ := newline_not_mem_of_lines h
  rw [List.mem_append, not_or] at hline
  rw [eq_of_lines h, List.append_assoc p]
  exact offsetAt?_above hbefore hline.1 _

end Text

/-! ### One edit -/

/-- **An edit whose ends resolve to the ends of a piece of a text** replaces that piece. -/
theorem applyEdits_singleton {head piece tail : List Char} {range : Range} (newText : String)
    (hstart : Text.offsetAt? (head ++ (piece ++ tail)) range.start = some (Text.bytes head))
    (hstop : Text.offsetAt? (head ++ (piece ++ tail)) range.stop =
      some (Text.bytes (head ++ piece))) :
    applyEdits (head ++ (piece ++ tail)) [⟨range, newText⟩] =
      .ok (head ++ (newText.toList ++ tail)) := by
  have hspan : Span.ofEdit (head ++ (piece ++ tail)) ⟨range, newText⟩ =
      .ok ⟨Text.bytes head, Text.bytes (head ++ piece), newText.toList⟩ := by
    rw [Span.ofEdit, hstart, hstop]
  have hresolve : resolve (head ++ (piece ++ tail)) [⟨range, newText⟩] =
      .ok [⟨Text.bytes head, Text.bytes (head ++ piece), newText.toList⟩] := by
    rw [resolve, List.mapM_cons, hspan]
    rfl
  have hreplace : Span.replaceIn ⟨Text.bytes head, Text.bytes (head ++ piece), newText.toList⟩
      (head ++ (piece ++ tail)) = head ++ (newText.toList ++ tail) := by
    rw [Span.replaceIn, Text.takeBytes_bytes_append, ← List.append_assoc head piece tail,
      Text.dropBytes_bytes_append, List.append_assoc]
  rw [applyEdits, hresolve, ← hreplace]
  simp [bind, Except.bind, Span.overlap?]

end Concord
