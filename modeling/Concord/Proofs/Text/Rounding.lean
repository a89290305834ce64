import Concord.Proofs.Text.LineStarts

/-!
# Offsets between boundaries

Every byte offset has a place, also one inside a character or beyond the end of the text: it is
taken back to the last boundary that is not behind it (`boundaryAt`, `isGreatest_boundaryAt`). The
place of the offset is that of the boundary (`positionAt_boundaryAt`), so what is known of the
places of boundaries holds of all offsets: a search in the table of line starts finds the place, the
place resolves to the boundary, a later offset is not at an earlier place, and the range between two
offsets in order keeps them in order (`positionAt_recovers`).
-/

namespace Concord.Text

/-! ### The boundary of an offset -/

/-- The boundary that a byte offset is taken back to: that of the longest beginning which is not
longer than the offset. -/
def boundaryAt (text : List Char) (offset : Nat) : Nat := bytes (takeBytes offset text)

theorem boundaryAt_bytes_append (before after : List Char) :
    boundaryAt (before ++ after) (bytes before) = bytes before := by
  rw [boundaryAt, takeBytes_bytes_append]

theorem isBoundary_boundaryAt (text : List Char) (offset : Nat) :
    IsBoundary text (boundaryAt text offset) :=
  ⟨takeBytes offset text, dropBytes offset text, (takeBytes_append_dropBytes offset text).symm, rfl⟩

theorem boundaryAt_of_isBoundary {text : List Char} {n : Nat} (h : IsBoundary text n) :
    boundaryAt text n = n := by
  obtain ⟨before, after, rfl, rfl⟩ := h
  exact boundaryAt_bytes_append before after

theorem boundaryAt_le (text : List Char) (offset : Nat) : boundaryAt text offset ≤ offset := by
  induction text generalizing offset with
  | nil => exact Nat.zero_le _
  | cons c cs ih =>
    rw [boundaryAt, takeBytes]
    split
    · next hfits =>
      have hrest := ih (offset - c.utf8Size)
      rw [boundaryAt] at hrest
      rw [bytes_cons]
      omega
    · exact Nat.zero_le _

theorem boundaryAt_mono (text : List Char) {m n : Nat} (h : m ≤ n) :
    boundaryAt text m ≤ boundaryAt text n := by
  induction text generalizing m n with
  | nil => exact Nat.le_refl _
  | cons c cs ih =>
    rw [boundaryAt, boundaryAt, takeBytes]
    split
    · next hfits =>
      have hrest := ih (Nat.sub_le_sub_right h c.utf8Size)
      rw [boundaryAt, boundaryAt] at hrest
      rw [takeBytes, if_pos (Nat.le_trans hfits h), bytes_cons, bytes_cons]
      omega
    · exact Nat.zero_le _

theorem IsBoundary.le_bytes {text : List Char} {n : Nat} (h : IsBoundary text n) :
    n ≤ bytes text := by
  obtain ⟨before, after, rfl, rfl⟩ := h
  rw [bytes_append]
  exact Nat.le_add_right _ _

/-- **An offset is taken back to the end of the text, if it lies beyond it, and from there to the
last boundary that is not behind it.** -/
theorem isGreatest_boundaryAt (text : List Char) (offset : Nat) :
    IsGreatest {n | IsBoundary text n ∧ n ≤ min offset (bytes text)} (boundaryAt text offset) := by
  have hboundary := isBoundary_boundaryAt text offset
  constructor
  · exact ⟨hboundary, Nat.le_min.2 ⟨boundaryAt_le text offset, hboundary.le_bytes⟩⟩
  · rintro n ⟨hn, hle⟩
    rw [← boundaryAt_of_isBoundary hn]
    exact boundaryAt_mono text (Nat.le_min.1 hle).1

/-! ### The place of an offset -/

/-- **The place of an offset** is that of the boundary it is taken back to. -/
theorem positionAt_boundaryAt (text : List Char) (offset : Nat) :
    positionAt text (boundaryAt text offset) = positionAt text offset := by
  have hplace := positionAt_bytes_append (takeBytes offset text) (dropBytes offset text)
  rw [takeBytes_append_dropBytes] at hplace
  rw [boundaryAt, hplace, positionAt, positionFrom_eq_endFrom]

/-- **A place counts lines, and UTF-16 code units along the last of them.** -/
theorem positionAt_of_lines {text l : List Char} {ls : List (List Char)} {offset : Nat}
    (h : lines (takeBytes offset text) = ls ++ [l]) :
    positionAt text offset = ⟨ls.length, units16 l⟩ := by
  rw [positionAt, positionFrom_eq_endFrom, endFrom_of_lines h]

/-- **The place of an offset resolves to the boundary it is taken back to.** -/
theorem offsetAt?_positionAt_eq (text : List Char) (offset : Nat) :
    offsetAt? text (positionAt text offset) = some (boundaryAt text offset) := by
  rw [← positionAt_boundaryAt]
  exact offsetAt?_positionAt (isBoundary_boundaryAt text offset)

/-- **A later offset is not at an earlier place.** -/
theorem positionAt_mono (text : List Char) {m n : Nat} (h : m ≤ n) :
    positionAt text m ≤ positionAt text n := by
  rw [← positionAt_boundaryAt text m, ← positionAt_boundaryAt text n]
  exact positionAt_le (isBoundary_boundaryAt text m) (isBoundary_boundaryAt text n)
    (boundaryAt_mono text h)

theorem rangeOf_eq_of_le (text : List Char) {m n : Nat} (h : m ≤ n) :
    rangeOf text m n = ⟨positionAt text m, positionAt text n⟩ := by
  have hrange := rangeOf_eq (isBoundary_boundaryAt text m) (isBoundary_boundaryAt text n)
    (boundaryAt_mono text h)
  rw [rangeOf, positionAt_boundaryAt, positionAt_boundaryAt] at hrange
  rw [rangeOf, hrange]

/-- That the places of a text stand for its byte offsets. -/
structure Recovers (text : List Char) : Prop where
  /-- An offset is taken back to the end of the text if it lies beyond it, and to the beginning of
  a character if it lies inside it. -/
  boundary (n : Nat) :
    IsGreatest {m | IsBoundary text m ∧ m ≤ min n (bytes text)} (boundaryAt text n)
  /-- The place of an offset: the number of the last line up to there, and its UTF-16 length. -/
  place (n : Nat) : ∃ above line, lines (takeBytes n text) = above ++ [line] ∧
    positionAt text n = ⟨above.length, units16 line⟩
  /-- The table of line starts increases, and a search in it finds the place: the last start that is
  not behind the boundary, and the UTF-16 length from there. -/
  search (n : Nat) : (lineStarts text).Pairwise (· < ·) ∧
    ∃ start, (lineStarts text)[(positionAt text n).line]? = some start ∧
      IsGreatest {s | s ∈ lineStarts text ∧ s ≤ boundaryAt text n} start ∧
      (positionAt text n).column = units16 (slice start (boundaryAt text n) text)
  /-- Each offset comes back from its place, taken back to a boundary. -/
  offset (n : Nat) : offsetAt? text (positionAt text n) = some (boundaryAt text n)
  mono (m n : Nat) : m ≤ n → positionAt text m ≤ positionAt text n
  strict (m n : Nat) : IsBoundary text m → IsBoundary text n → m < n →
    positionAt text m < positionAt text n
  /-- The range between two offsets in order has their places as its ends, in this order. -/
  range (m n : Nat) : m ≤ n → rangeOf text m n = ⟨positionAt text m, positionAt text n⟩
  /-- Two boundaries come back from the range between them. -/
  boundaries (m n : Nat) : IsBoundary text m → IsBoundary text n → m ≤ n →
    offsetAt? text (rangeOf text m n).start = some m ∧
      offsetAt? text (rangeOf text m n).stop = some n

/-- **Byte offsets are recovered from their places**, in every text. -/
theorem positionAt_recovers (text : List Char) : Recovers text where
  boundary n := isGreatest_boundaryAt text n
  place n := by
    obtain ⟨above, line, hlines⟩ := exists_lines_eq_concat (takeBytes n text)
    exact ⟨above, line, hlines, positionAt_of_lines hlines⟩
  search n := by
    have hfound := positionAt_search (isBoundary_boundaryAt text n)
    rw [positionAt_boundaryAt] at hfound
    exact ⟨pairwise_lineStarts text, hfound⟩
  offset n := offsetAt?_positionAt_eq text n
  mono _ _ h := positionAt_mono text h
  strict _ _ hm hn h := positionAt_lt hm hn h
  range _ _ h := rangeOf_eq_of_le text h
  boundaries m n hm hn h := by
    rw [rangeOf_eq hm hn h]
    exact ⟨offsetAt?_positionAt hm, offsetAt?_positionAt hn⟩

end Concord.Text
