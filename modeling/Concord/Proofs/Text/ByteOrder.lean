import Concord.Dict
import Mathlib.Algebra.Group.Nat.Defs
import Mathlib.Tactic.SplitIfs

/-!
# The order of texts and of their bytes

Texts are compared character by character, by code point. That is the order of their UTF-8 forms,
compared byte by byte (`lt_iff_utf8_lt`), so wherever keys, files or edits are said to be in the
order of texts they are in byte order.

UTF-8 keeps the order because it writes a number with its high digits first: the first byte shows
how many there are, more for larger numbers, and each byte after it holds six bits. Two characters
with different first bytes are told apart there; with the same first byte they are told apart by the
first byte that differs (`lowDigits_append_lt`), and what follows the characters does not matter
(`utf8EncodeChar_append_lt`).
-/

namespace Concord.Text

/-- The bytes of the UTF-8 form of a text. -/
def utf8 (s : String) : List UInt8 := s.toUTF8.data.toList

theorem utf8_eq_flatMap (s : String) : utf8 s = s.toList.flatMap String.utf8EncodeChar := by
  rw [utf8, String.toUTF8_eq_toByteArray, ← String.utf8Encode_toList, List.utf8Encode,
    List.data_toByteArray, List.toList_toArray]

/-! ### Bytes of one character -/

/-- The bytes that hold the last `n` digits of a number to the base 64. -/
def lowDigits : Nat → Nat → List UInt8
  | 0, _ => []
  | n + 1, v => UInt8.ofNat (v / 64 ^ n % 64 + 128) :: lowDigits n v

theorem cons_ofNat_lt {a b : Nat} {as bs : List UInt8} (hb : b < 256)
    (h : a < b ∨ a = b ∧ as < bs) : UInt8.ofNat a :: as < UInt8.ofNat b :: bs := by
  rw [List.cons_lt_cons_iff]
  rcases h with hlt | ⟨rfl, hrest⟩
  · exact .inl ((UInt8.ofNat_lt_iff_lt (Nat.lt_trans hlt hb) hb).2 hlt)
  · exact .inr ⟨rfl, hrest⟩

/-- **Of two numbers with the same high digits, the smaller has the smaller low digits**, whatever
follows them. -/
theorem lowDigits_append_lt {n v w : Nat} (h : v < w) (hhigh : v / 64 ^ n = w / 64 ^ n)
    (as bs : List UInt8) : lowDigits n v ++ as < lowDigits n w ++ bs := by
  induction n with
  | zero =>
    rw [Nat.pow_zero, Nat.div_one, Nat.div_one] at hhigh
    omega
  | succ n ih =>
    have hle : v / 64 ^ n ≤ w / 64 ^ n := Nat.div_le_div_right (Nat.le_of_lt h)
    have hsame : v / 64 ^ n / 64 = w / 64 ^ n / 64 := by
      rw [Nat.div_div_eq_div_mul, Nat.div_div_eq_div_mul, ← Nat.pow_succ, hhigh]
    refine cons_ofNat_lt (by omega) ?_
    rcases Nat.lt_or_eq_of_le hle with hlt | heq
    · exact .inl (by omega)
    · exact .inr ⟨by rw [heq], ih heq⟩

/-- The number of bytes after the first one in the UTF-8 form of a code point. -/
def tailLength (v : Nat) : Nat :=
  if v ≤ 0x7f then 0 else if v ≤ 0x7ff then 1 else if v ≤ 0xffff then 2 else 3

/-- The first byte of the UTF-8 form of a code point: its high digits, behind a mark that says how
many bytes follow. -/
def firstByte (v : Nat) : Nat :=
  if v ≤ 0x7f then v else if v ≤ 0x7ff then v / 64 + 0xc0
  else if v ≤ 0xffff then v / 4096 + 0xe0 else v / 262144 + 0xf0

theorem firstByte_lt {v : Nat} (h : v < 0x110000) : firstByte v < 256 := by
  rw [firstByte]
  split
  · omega
  · split
    · omega
    · split <;> omega

theorem toNat_lt (c : Char) : c.toNat < 0x110000 := by
  have hvalid : c.val.toNat < 0xd800 ∨ 0xdfff < c.val.toNat ∧ c.val.toNat < 0x110000 := c.valid
  have hval : c.toNat = c.val.toNat := rfl
  omega

/-- The UTF-8 form of a character is its first byte and the low digits of its code point. -/
theorem utf8EncodeChar_eq (c : Char) :
    String.utf8EncodeChar c =
      UInt8.ofNat (firstByte c.toNat) :: lowDigits (tailLength c.toNat) c.toNat := by
  have hlt := toNat_lt c
  have hval : c.val.toNat = c.toNat := rfl
  rw [String.utf8EncodeChar, firstByte, tailLength]
  simp only [hval]
  generalize c.toNat = v at *
  split
  · rfl
  · split
    · rw [show v / 64 % 32 + 192 = v / 64 + 0xc0 by omega]
      simp [lowDigits]
    · split
      · rw [show v / 4096 % 16 + 224 = v / 4096 + 0xe0 by omega]
        simp [lowDigits]
      · rw [show v / 262144 % 8 + 240 = v / 262144 + 0xf0 by omega]
        simp [lowDigits]

/-- **A smaller code point has a smaller first byte**, or the same one before as many bytes, and
then the same high digits. -/
theorem firstByte_cases {v w : Nat} (h : v < w) :
    firstByte v < firstByte w ∨ firstByte v = firstByte w ∧ tailLength v = tailLength w ∧
      v / 64 ^ tailLength v = w / 64 ^ tailLength w := by
  simp only [firstByte, tailLength]
  -- different lengths show in the marks, the same length leaves the high digits
  split_ifs <;> omega

/-- **A smaller character has a smaller UTF-8 form**, whatever follows the characters. -/
theorem utf8EncodeChar_append_lt {c d : Char} (h : c < d) (as bs : List UInt8) :
    String.utf8EncodeChar c ++ as < String.utf8EncodeChar d ++ bs := by
  have hlt : c.toNat < d.toNat := h
  rw [utf8EncodeChar_eq, utf8EncodeChar_eq, List.cons_append, List.cons_append]
  refine cons_ofNat_lt (firstByte_lt (toNat_lt d)) ?_
  rcases firstByte_cases hlt with hfirst | ⟨hfirst, hlength, hhigh⟩
  · exact .inl hfirst
  · rw [← hlength] at hhigh ⊢
    exact .inr ⟨hfirst, lowDigits_append_lt hlt hhigh as bs⟩

/-! ### Bytes of a text -/

/-- The order of texts carries over to their UTF-8 forms. -/
theorem flatMap_utf8EncodeChar_lt {cs ds : List Char} (h : cs < ds) :
    cs.flatMap String.utf8EncodeChar < ds.flatMap String.utf8EncodeChar := by
  induction cs generalizing ds with
  | nil =>
    cases ds with
    | nil => exact absurd h (List.not_lt_nil _)
    | cons d ds =>
      obtain ⟨b, bs, hd⟩ := List.exists_cons_of_ne_nil (String.utf8EncodeChar_ne_nil (c := d))
      rw [List.flatMap_cons, hd]
      exact List.nil_lt_cons _ _
  | cons c cs ih =>
    cases ds with
    | nil => exact absurd h (List.not_lt_nil _)
    | cons d ds =>
      rw [List.flatMap_cons, List.flatMap_cons]
      rcases List.cons_lt_cons_iff.1 h with hlt | ⟨rfl, hrest⟩
      · exact utf8EncodeChar_append_lt hlt _ _
      · exact List.append_left_lt (ih hrest)

/-- **The order of texts is that of their UTF-8 forms.** -/
theorem lt_iff_utf8_lt {s t : String} : s < t ↔ utf8 s < utf8 t := by
  have hmono : ∀ {s t : String}, s < t → utf8 s < utf8 t := by
    intro s t h
    rw [utf8_eq_flatMap, utf8_eq_flatMap]
    exact flatMap_utf8EncodeChar_lt h
  refine ⟨hmono, fun h => ?_⟩
  -- otherwise the texts are the same, or in the other order with their bytes
  by_cases hst : s < t
  · exact hst
  · by_cases hts : t < s
    · exact absurd (hmono hts) (List.lt_asymm h)
    · rw [eq_of_not_lt hst hts] at h
      exact absurd h (List.lt_irrefl _)

end Concord.Text
