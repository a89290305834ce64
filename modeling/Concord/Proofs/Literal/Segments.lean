import Concord.Literal.Unescape
import Mathlib.Algebra.Ring.Nat

/-!
# Backslash escapes, one by one

The inside of a literal with backslash escapes is a sequence of *segments*: characters that stand
for themselves and escapes, each with its meaning. How far an escape reaches is up to the decoder,
which looks ahead by different lengths: at one character, past an optional line feed, at two or four
digits, at all digits up to a brace. This file shows that it always stops where the segment does,
whatever comes next (`unescapeBackslash_text_append`) – a digit after the last digit of an escape
stands for itself – and so decodes segment by segment (`unescape_segments`).

Numbers are read by position here (`HexDigit.number`), the decoder reads them from the left.
-/

namespace Concord.Literal

/-! ### Hexadecimal numbers -/

/-- A hexadecimal digit in one of its two spellings. -/
structure HexDigit where
  value : Fin 16
  upper : Bool
deriving DecidableEq, Repr

namespace HexDigit

/-- The digits as they are written in lower case. -/
def lowerDigits : List Char :=
  ['0', '1', '2', '3', '4', '5', '6', '7', '8', '9', 'a', 'b', 'c', 'd', 'e', 'f']

/-- A digit as it is written. -/
def char (d : HexDigit) : Char :=
  let lower := lowerDigits[d.value]
  if d.upper then lower.toUpper else lower

/-- The number that some digits spell, each by its place. -/
def number : List HexDigit → Nat
  | [] => 0
  | d :: ds => d.value * 16 ^ ds.length + number ds

theorem hexValue?_char (d : HexDigit) : hexValue? d.char = some d.value.val := by
  obtain ⟨value, upper⟩ := d
  revert value upper
  decide

theorem char_ne {d : HexDigit} {c : Char} (hc : hexValue? c = none) : d.char ≠ c := by
  rintro rfl
  rw [hexValue?_char] at hc
  exact absurd hc nofun

/-- From the left, what was read so far counts as many places as there are digits left. -/
theorem hexFrom_map_char (acc : Nat) (ds : List HexDigit) :
    hexFrom acc (ds.map char) = some (acc * 16 ^ ds.length + number ds) := by
  induction ds generalizing acc with
  | nil => simp [hexFrom, number]
  | cons d ds ih =>
    rw [List.map_cons, hexFrom, hexValue?_char, Option.bind_some, ih, number, List.length_cons]
    rw [Nat.add_mul, Nat.add_assoc, Nat.pow_succ', ← Nat.mul_assoc, Nat.mul_comm 16 acc]

theorem hexNumber?_map_char {ds : List HexDigit} (h : ds ≠ []) :
    hexNumber? (ds.map char) = some (number ds) := by
  obtain ⟨d, ds, rfl⟩ := List.exists_cons_of_ne_nil h
  have hplus : d.char ≠ '+' := char_ne (by decide)
  have hread := hexFrom_map_char 0 (d :: ds)
  rw [Nat.zero_mul, Nat.zero_add, List.map_cons] at hread
  rw [List.map_cons, hexNumber?, hread] <;> simp [hplus]

/-- **Digits spell the character of their number**, if there is one. -/
theorem charOfHex?_map_char {ds : List HexDigit} (h : ds ≠ []) (hvalid : (number ds).isValidChar) :
    charOfHex? (ds.map char) = some (Char.ofNat (number ds)) := by
  rw [charOfHex?, hexNumber?_map_char h, Option.bind_some, charOfNumber?, dif_pos hvalid,
    Char.ofNat, dif_pos hvalid]

theorem isValidChar_number_pair (d₁ d₂ : HexDigit) : (number [d₁, d₂]).isValidChar := by
  have h₁ := d₁.value.isLt
  have h₂ := d₂.value.isLt
  refine Or.inl ?_
  simp only [number, List.length_cons, List.length_nil]
  omega

/-- A number of digits is looked for and found: what follows is left. -/
theorem takeHex_map_char (ds : List HexDigit) (cs : List Char) :
    takeHex ds.length (ds.map char ++ cs) = (ds.map char, cs) := by
  induction ds with
  | nil => cases cs <;> rfl
  | cons d ds ih =>
    rw [List.length_cons, List.map_cons, List.cons_append, takeHex, if_pos, ih]
    rw [hexValue?_char]
    rfl

/-- No digit ends the braces. -/
theorem takeBraced_map_char (ds : List HexDigit) (cs : List Char) :
    takeBraced (ds.map char ++ '}' :: cs) = (ds.map char, cs) := by
  induction ds with
  | nil => rfl
  | cons d ds ih =>
    have hbrace : d.char ≠ '}' := char_ne (by decide)
    rw [List.map_cons, List.cons_append, takeBraced, ih]
    simpa using hbrace

end HexDigit

/-! ### Segments -/

/-- The characters that have a meaning of their own after a backslash, with their meanings. -/
def letters : List (Char × Char) :=
  [('n', '\n'), ('r', '\r'), ('t', '\t'), ('0', '\x00'), ('\\', '\\'), ('\'', '\''), ('"', '"'),
   ('\x60', '\x60'), ('$', '$')]

/-- The characters that begin a longer escape after a backslash, or a line break. -/
def openers : List Char := ['\n', '\r', 'x', 'u']

/-- A piece of the inside of a literal that has a meaning of its own. -/
inductive Segment where
  /-- A character that stands for itself. -/
  | plain (c : Char) (h : c ≠ '\\')
  | letter (c meant : Char) (h : (c, meant) ∈ letters)
  | lineFeed
  | carriageReturn
  /-- A character by a number of two digits. -/
  | byte (d₁ d₂ : HexDigit)
  /-- A character by a number of four digits. -/
  | unit (d₁ d₂ d₃ d₄ : HexDigit) (h : (HexDigit.number [d₁, d₂, d₃, d₄]).isValidChar)
  /-- A character by a number in braces. -/
  | braced (ds : List HexDigit) (hne : ds ≠ []) (h : (HexDigit.number ds).isValidChar)
  /-- A backslash before a character that it makes no difference to. -/
  | unknown (c : Char) (hletter : c ∉ letters.map Prod.fst) (hopener : c ∉ openers)

namespace Segment

/-- A segment as it is written. A line break is a line feed or a carriage return with one. -/
def text : Segment → List Char
  | plain c _ => [c]
  | letter c _ _ => ['\\', c]
  | lineFeed => ['\\', '\n']
  | carriageReturn => ['\\', '\r', '\n']
  | byte d₁ d₂ => ['\\', 'x', d₁.char, d₂.char]
  | unit d₁ d₂ d₃ d₄ _ => ['\\', 'u', d₁.char, d₂.char, d₃.char, d₄.char]
  | braced ds _ _ => '\\' :: 'u' :: '{' :: (ds.map HexDigit.char ++ ['}'])
  | unknown c _ _ => ['\\', c]

/-- What a segment stands for: a line break after a backslash stands for nothing, and a backslash
that is no escape for itself. -/
def meaning : Segment → List Char
  | plain c _ => [c]
  | letter _ meant _ => [meant]
  | lineFeed => []
  | carriageReturn => []
  | byte d₁ d₂ => [Char.ofNat (HexDigit.number [d₁, d₂])]
  | unit d₁ d₂ d₃ d₄ _ => [Char.ofNat (HexDigit.number [d₁, d₂, d₃, d₄])]
  | braced ds _ _ => [Char.ofNat (HexDigit.number ds)]
  | unknown c _ _ => ['\\', c]

end Segment

/-! ### How far an escape reaches -/

open HexDigit

variable (cs : List Char)

theorem escapeSequence_letter {c meant : Char} (h : (c, meant) ∈ letters) :
    escapeSequence (c :: cs) = ([meant], cs) := by
  simp only [letters, List.mem_cons, List.not_mem_nil, or_false, Prod.mk.injEq] at h
  rcases h with ⟨rfl, rfl⟩ | ⟨rfl, rfl⟩ | ⟨rfl, rfl⟩ | ⟨rfl, rfl⟩ | ⟨rfl, rfl⟩ | ⟨rfl, rfl⟩ |
    ⟨rfl, rfl⟩ | ⟨rfl, rfl⟩ | ⟨rfl, rfl⟩ <;> rfl

theorem escapeSequence_unknown {c : Char} (hletter : c ∉ letters.map Prod.fst)
    (hopener : c ∉ openers) : escapeSequence (c :: cs) = (['\\', c], cs) := by
  simp only [letters, openers, List.map_cons, List.map_nil, List.mem_cons, List.not_mem_nil,
    or_false, not_or] at hletter hopener
  rw [escapeSequence] <;> simp_all

theorem escapeSequence_byte (d₁ d₂ : HexDigit) :
    escapeSequence ('x' :: d₁.char :: d₂.char :: cs) = ([Char.ofNat (number [d₁, d₂])], cs) := by
  have htake : takeHex 2 (d₁.char :: d₂.char :: cs) = ([d₁.char, d₂.char], cs) :=
    takeHex_map_char [d₁, d₂] cs
  have hread : charOfHex? [d₁.char, d₂.char] = some (Char.ofNat (number [d₁, d₂])) :=
    charOfHex?_map_char (List.cons_ne_nil _ _) (isValidChar_number_pair d₁ d₂)
  rw [escapeSequence, htake]
  dsimp only
  rw [hread]
  rfl

theorem escapeSequence_unit {d₁ d₂ d₃ d₄ : HexDigit}
    (h : (number [d₁, d₂, d₃, d₄]).isValidChar) :
    escapeSequence ('u' :: d₁.char :: d₂.char :: d₃.char :: d₄.char :: cs) =
      ([Char.ofNat (number [d₁, d₂, d₃, d₄])], cs) := by
  have htake : takeHex 4 (d₁.char :: d₂.char :: d₃.char :: d₄.char :: cs) =
      ([d₁.char, d₂.char, d₃.char, d₄.char], cs) :=
    takeHex_map_char [d₁, d₂, d₃, d₄] cs
  have hread : charOfHex? [d₁.char, d₂.char, d₃.char, d₄.char] =
      some (Char.ofNat (number [d₁, d₂, d₃, d₄])) :=
    charOfHex?_map_char (List.cons_ne_nil _ _) h
  have hbrace : d₁.char ≠ '{' := char_ne (by decide)
  rw [escapeSequence, htake]
  · dsimp only
    rw [hread, numbered]
  · simpa using hbrace

theorem escapeSequence_braced {ds : List HexDigit} (hne : ds ≠ []) (h : (number ds).isValidChar) :
    escapeSequence ('u' :: '{' :: (ds.map char ++ '}' :: cs)) =
      ([Char.ofNat (number ds)], cs) := by
  rw [escapeSequence, takeBraced_map_char]
  dsimp only
  rw [charOfHex?_map_char hne h, numbered]

/-- A backslash is read with all that it takes. -/
theorem unescapeBackslash_of_escapeSequence (body : List Char) {meant : List Char}
    (h : escapeSequence (body ++ cs) = (meant, cs)) :
    unescapeBackslash ('\\' :: body ++ cs) = meant ++ unescapeBackslash cs := by
  rw [List.cons_append, unescapeBackslash, if_pos rfl, h]

/-- **A segment is decoded as it stands**, whatever follows it. -/
theorem unescapeBackslash_text_append (s : Segment) :
    unescapeBackslash (s.text ++ cs) = s.meaning ++ unescapeBackslash cs := by
  cases s with
  | plain c h => rw [Segment.text, List.singleton_append, unescapeBackslash, if_neg h]; rfl
  | letter c meant h =>
    exact unescapeBackslash_of_escapeSequence cs [c] (escapeSequence_letter cs h)
  | lineFeed => exact unescapeBackslash_of_escapeSequence cs ['\n'] rfl
  | carriageReturn => exact unescapeBackslash_of_escapeSequence cs ['\r', '\n'] rfl
  | byte d₁ d₂ =>
    exact unescapeBackslash_of_escapeSequence cs ['x', d₁.char, d₂.char]
      (escapeSequence_byte cs d₁ d₂)
  | unit d₁ d₂ d₃ d₄ h =>
    exact unescapeBackslash_of_escapeSequence cs
      ['u', d₁.char, d₂.char, d₃.char, d₄.char] (escapeSequence_unit cs h)
  | braced ds hne h =>
    refine unescapeBackslash_of_escapeSequence cs ('u' :: '{' :: (ds.map char ++ ['}'])) ?_
    rw [List.cons_append, List.cons_append, List.append_assoc, List.singleton_append]
    exact escapeSequence_braced cs hne h
  | unknown c hletter hopener =>
    exact unescapeBackslash_of_escapeSequence cs [c]
      (escapeSequence_unknown cs hletter hopener)

/-- **Backslash escapes are decoded segment by segment.** -/
theorem unescape_segments (segments : List Segment) :
    unescape (segments.flatMap Segment.text) .backslash = segments.flatMap Segment.meaning := by
  rw [unescape]
  induction segments with
  | nil => rw [List.flatMap_nil, List.flatMap_nil, unescapeBackslash]
  | cons s segments ih =>
    rw [List.flatMap_cons, unescapeBackslash_text_append, ih, List.flatMap_cons]

-- a digit after the last one of an escape stands for itself
example : unescape "\\x4142\\u00410\\u\x7b00041\x7d0".toList .backslash =
    "A42A0A0".toList := by cbv

end Concord.Literal
