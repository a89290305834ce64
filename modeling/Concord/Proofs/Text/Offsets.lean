import Concord.Proofs.Text.Places

/-!
# From byte offsets to places and back

At a boundary, the place of a byte offset is where the beginning of that many bytes ends
(`positionAt_bytes_append`), and it resolves to the offset it was made of (`offsetAt?_positionAt`).
The places of boundaries are in the order of the boundaries (`positionAt_le`, `positionAt_lt`), so
a range that is built of two of them in order keeps them as they are (`rangeOf_eq`), and the text
found there by its places is the text between the two offsets (`textAt?_rangeOf`).
-/

namespace Concord.Text

/-! ### The place of an offset -/

/-- The place of an offset is where the longest beginning ends that is not longer than it. -/
theorem positionFrom_eq_endFrom (p : Position) (text : List Char) (offset : Nat) :
    positionFrom p text offset = endFrom p (takeBytes offset text) := by
  induction text generalizing p offset with
  | nil => rfl
  | cons c cs ih =>
    rw [positionFrom, takeBytes]
    split
    · rw [ih, endFrom_cons]
    · rfl

/-- **The place of a boundary** is where the text up to it ends. -/
theorem positionAt_bytes_append (before after : List Char) :
    positionAt (before ++ after) (bytes before) = endFrom .zero before := by
  rw [positionAt, positionFrom_eq_endFrom, takeBytes_bytes_append]

/-- A text made of whole lines ends at the beginning of the line after them. -/
theorem endFrom_above {ls : List (List Char)} (h : ∀ x ∈ ls, '\n' ∉ x) (n : Nat) :
    endFrom ⟨n, 0⟩ (above ls) = ⟨n + ls.length, 0⟩ := by
  induction ls generalizing n with
  | nil => rfl
  | cons l ls ih =>
    have hfeed : endFrom ⟨n, 0⟩ (l ++ ['\n']) = ⟨n + 1, 0⟩ := by
      rw [endFrom_append, endFrom_of_not_mem (h l List.mem_cons_self), endFrom_cons, advance,
        if_pos rfl, endFrom_nil]
    rw [above_cons, ← List.singleton_append, ← List.append_assoc, endFrom_append, hfeed,
      ih fun x hx => h x (List.mem_cons_of_mem _ hx), List.length_cons]
    congr 1
    omega

/-- **A text ends on its last line**, as many columns on as that line has UTF-16 code units. -/
theorem endFrom_of_lines {text l : List Char} {ls : List (List Char)}
    (h : lines text = ls ++ [l]) : endFrom .zero text = ⟨ls.length, units16 l⟩ := by
  obtain ⟨habove, hlast, -⟩ := newline_not_mem_of_lines h
  have htext := eq_of_lines h
  rw [below_nil, List.append_nil] at htext
  rw [htext, endFrom_append, Position.zero, endFrom_above habove, endFrom_of_not_mem hlast,
    Nat.zero_add, Nat.zero_add]

/-- The end of a beginning of a text resolves to the number of its bytes. -/
theorem offsetAt?_endFrom (before after : List Char) :
    offsetAt? (before ++ after) (endFrom .zero before) = some (bytes before) := by
  -- the last line of the beginning is the one that is walked along
  obtain ⟨ls, l, hlines⟩ := exists_lines_eq_concat before
  obtain ⟨habove, hlast, -⟩ := newline_not_mem_of_lines hlines
  have hbefore := eq_of_lines hlines
  rw [below_nil, List.append_nil] at hbefore
  rw [endFrom_of_lines hlines, hbefore, List.append_assoc]
  exact offsetAt?_above habove hlast after

/-- **The place of a boundary resolves to that boundary.** -/
theorem offsetAt?_positionAt {text : List Char} {n : Nat} (h : IsBoundary text n) :
    offsetAt? text (positionAt text n) = some n := by
  obtain ⟨before, after, rfl, rfl⟩ := h
  rw [positionAt_bytes_append]
  exact offsetAt?_endFrom before after

/-! ### Ranges between boundaries -/

section Boundaries

variable {text : List Char} {m n : Nat} (hm : IsBoundary text m) (hn : IsBoundary text n)

include hm hn

/-- **Further on in the text is at a later place.** -/
theorem positionAt_lt (h : m < n) : positionAt text m < positionAt text n := by
  obtain ⟨before, piece, after, rfl, rfl, rfl⟩ := exists_pieces hm hn (Nat.le_of_lt h)
  cases piece with
  | nil =>
    rw [List.append_nil] at h
    exact absurd h (Nat.lt_irrefl _)
  | cons c cs =>
    rw [positionAt_bytes_append, ← List.append_assoc, positionAt_bytes_append]
    exact (EndsAt.end_ (before ++ c :: cs)).lt

theorem positionAt_le (h : m ≤ n) : positionAt text m ≤ positionAt text n := by
  rcases Nat.lt_or_eq_of_le h with hlt | rfl
  · have hplace := positionAt_lt hm hn hlt
    rw [Position.lt_iff] at hplace
    rw [Position.le_iff]
    omega
  · rw [Position.le_iff]
    omega

theorem rangeOf_eq (h : m ≤ n) : rangeOf text m n = ⟨positionAt text m, positionAt text n⟩ := by
  have hle := positionAt_le hm hn h
  rw [Position.le_iff] at hle
  rw [rangeOf, Range.between, if_neg]
  rw [Position.lt_iff]
  omega

end Boundaries

/-! ### The text in a range -/

theorem slice?_eq_some_iff {text piece : List Char} {m n : Nat} :
    slice? m n text = some piece ↔
      ∃ before after, text = before ++ (piece ++ after) ∧ bytes before = m ∧
        bytes (before ++ piece) = n := by
  rw [slice?, Option.ite_none_right_eq_some]
  constructor
  · rintro ⟨⟨hmn, hm, hn⟩, hpiece⟩
    obtain ⟨before, piece', after, rfl, rfl, rfl⟩ :=
      exists_pieces (cutsAt_iff.1 hm) (cutsAt_iff.1 hn) hmn
    rw [bytes_append, slice_bytes_append, Option.some.injEq] at hpiece
    subst hpiece
    exact ⟨before, after, rfl, rfl, rfl⟩
  · rintro ⟨before, after, rfl, rfl, rfl⟩
    refine ⟨⟨?_, cutsAt_iff.2 ⟨before, piece ++ after, rfl, rfl⟩,
      cutsAt_iff.2 ⟨before ++ piece, after, List.append_assoc .. |>.symm, rfl⟩⟩, ?_⟩
    · rw [bytes_append]
      exact Nat.le_add_right _ _
    · rw [bytes_append, slice_bytes_append]

theorem isBoundary_of_slice? {text piece : List Char} {m n : Nat}
    (h : slice? m n text = some piece) : IsBoundary text m ∧ IsBoundary text n ∧ m ≤ n := by
  rw [slice?, Option.ite_none_right_eq_some] at h
  obtain ⟨⟨hmn, hm, hn⟩, -⟩ := h
  exact ⟨cutsAt_iff.1 hm, cutsAt_iff.1 hn, hmn⟩

/-- The text in a range, if both its ends lie in the text, in order. -/
def textAt? (text : List Char) (range : Range) : Option (List Char) :=
  match offsetAt? text range.start, offsetAt? text range.stop with
  | some m, some n => slice? m n text
  | _, _ => none

/-- **The text in the range between two boundaries** is the text between them. -/
theorem textAt?_rangeOf {text : List Char} {m n : Nat} (hm : IsBoundary text m)
    (hn : IsBoundary text n) (h : m ≤ n) : textAt? text (rangeOf text m n) = slice? m n text := by
  rw [rangeOf_eq hm hn h, textAt?, offsetAt?_positionAt hm, offsetAt?_positionAt hn]

end Concord.Text
