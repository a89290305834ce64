import Concord.Proofs.Literal.RoundTrip
import Concord.Proofs.Literal.Segments
import Concord.Proofs.Text.ByteOrder
import Concord.Proofs.Text.Lines

/-!
# Texts spelled in code units

A text can be spelled with one escape of four digits for each of its UTF-16 code units. A character
of the basic plane is one unit, its code point; any other one is a pair of surrogates.

An escape is decoded alone (`unescapeBackslash_units`), and the number of a surrogate is that of no
character, so the escapes of a pair stay as they are written. A spelled text is therefore read back
exactly when it lies in the basic plane (`unescape_codeUnits`). That it is not read back otherwise
is a matter of length: every escape gives a character at least, and a pair takes two of them.
-/

namespace Concord

namespace Text

/-- Whether a character lies in the basic plane, so that one code unit holds it. -/
def IsBasic (c : Char) : Prop := c.toNat < 0x10000

instance : DecidablePred IsBasic := fun c => inferInstanceAs (Decidable (c.toNat < 0x10000))

/-- The UTF-16 code units of a character: its code point, or the two surrogates between which the
digits of the code point are divided. -/
def charUtf16 (c : Char) : List Nat :=
  if IsBasic c then [c.toNat]
  else [0xd800 + (c.toNat - 0x10000) / 0x400, 0xdc00 + (c.toNat - 0x10000) % 0x400]

/-- The UTF-16 code units of a text. -/
def utf16 (cs : List Char) : List Nat := cs.flatMap charUtf16

theorem charUnits16_eq (c : Char) : charUnits16 c = if IsBasic c then 1 else 2 := rfl

theorem length_charUtf16 (c : Char) : (charUtf16 c).length = charUnits16 c := by
  rw [charUtf16, charUnits16_eq]
  split <;> rfl

/-- There are as many code units as are counted. -/
theorem length_utf16 (cs : List Char) : (utf16 cs).length = units16 cs := by
  induction cs with
  | nil => rfl
  | cons c cs ih =>
    rw [utf16, List.flatMap_cons, List.length_append, length_charUtf16, ← utf16, ih, units16_cons]

theorem lt_of_mem_charUtf16 {c : Char} {u : Nat} (h : u ∈ charUtf16 c) : u < 0x10000 := by
  have hlt := toNat_lt c
  rw [charUtf16] at h
  split at h
  · next hbasic => rwa [List.mem_singleton.1 h]
  · rcases List.mem_cons.1 h with rfl | h
    · omega
    · rw [List.mem_singleton.1 h]
      omega

theorem lt_of_mem_utf16 {cs : List Char} {u : Nat} (h : u ∈ utf16 cs) : u < 0x10000 := by
  obtain ⟨c, -, hu⟩ := List.mem_flatMap.1 h
  exact lt_of_mem_charUtf16 hu

theorem length_le_units16 (cs : List Char) : cs.length ≤ units16 cs := by
  induction cs with
  | nil => exact Nat.le_refl 0
  | cons c cs ih =>
    have hc := charUnits16_pos c
    rw [List.length_cons, units16_cons]
    omega

/-- **A text with no more code units than characters lies in the basic plane.** -/
theorem isBasic_of_units16_le {cs : List Char} (h : units16 cs ≤ cs.length) :
    ∀ c ∈ cs, IsBasic c := by
  induction cs with
  | nil => exact nofun
  | cons c cs ih =>
    have hrest := length_le_units16 cs
    rw [List.length_cons, units16_cons, charUnits16_eq] at h
    split at h
    · next hc => exact List.forall_mem_cons.2 ⟨hc, ih (by omega)⟩
    · omega

end Text

namespace Literal

open Text HexDigit

/-- An escape of four digits. -/
structure UnitEscape where
  d₁ : HexDigit
  d₂ : HexDigit
  d₃ : HexDigit
  d₄ : HexDigit
deriving DecidableEq, Repr

namespace UnitEscape

def digits (e : UnitEscape) : List HexDigit := [e.d₁, e.d₂, e.d₃, e.d₄]

/-- The code unit that an escape names. -/
def unit (e : UnitEscape) : Nat := number e.digits

/-- An escape as it is written. -/
def text (e : UnitEscape) : List Char := '\\' :: 'u' :: e.digits.map char

/-- What an escape is decoded to: a surrogate to nothing else than itself. -/
def meaning (e : UnitEscape) : List Char :=
  if e.unit.isValidChar then [Char.ofNat e.unit] else e.text

/-- The escape of a code unit with digits in lower case. -/
def ofUnit (u : Nat) : UnitEscape :=
  ⟨⟨Fin.ofNat 16 (u / 0x1000), false⟩, ⟨Fin.ofNat 16 (u / 0x100), false⟩,
    ⟨Fin.ofNat 16 (u / 0x10), false⟩, ⟨Fin.ofNat 16 u, false⟩⟩

theorem unit_ofUnit {u : Nat} (h : u < 0x10000) : (ofUnit u).unit = u := by
  simp only [unit, digits, ofUnit, number, Fin.val_ofNat, List.length_cons, List.length_nil]
  omega

theorem length_meaning_pos (e : UnitEscape) : 1 ≤ e.meaning.length := by
  rw [meaning]
  split
  · exact Nat.le_refl 1
  · exact Nat.succ_pos _

end UnitEscape

open UnitEscape

/-! ### One escape -/

/-- **A surrogate is left as it is written**, whatever follows it. -/
theorem escapeSequence_surrogate {e : UnitEscape} (h : ¬e.unit.isValidChar) (cs : List Char) :
    escapeSequence ('u' :: (e.digits.map char ++ cs)) = (e.text, cs) := by
  have htake : takeHex 4 (e.digits.map char ++ cs) = (e.digits.map char, cs) :=
    takeHex_map_char e.digits cs
  have hnumber : hexNumber? (e.digits.map char) = some e.unit :=
    hexNumber?_map_char (List.cons_ne_nil _ _)
  have hread : charOfHex? (e.digits.map char) = none := by
    rw [charOfHex?, hnumber, Option.bind_some, charOfNumber?, dif_neg h]
  have hbrace : e.d₁.char ≠ '{' := char_ne (by decide)
  rw [escapeSequence, htake]
  · dsimp only
    rw [hread]
    rfl
  · intro rest hrest
    exact hbrace (List.cons.inj hrest).1

/-- **An escape is decoded alone**, whatever follows it. -/
theorem unescapeBackslash_unit_append (e : UnitEscape) (cs : List Char) :
    unescapeBackslash (e.text ++ cs) = e.meaning ++ unescapeBackslash cs := by
  rw [meaning]
  split
  · next h => exact unescapeBackslash_text_append cs (.unit e.d₁ e.d₂ e.d₃ e.d₄ h)
  · next h =>
    exact unescapeBackslash_of_escapeSequence cs ('u' :: e.digits.map char)
      (escapeSequence_surrogate h cs)

theorem unescapeBackslash_units (es : List UnitEscape) :
    unescapeBackslash (es.flatMap text) = es.flatMap meaning := by
  induction es with
  | nil => rw [List.flatMap_nil, List.flatMap_nil, unescapeBackslash]
  | cons e es ih =>
    rw [List.flatMap_cons, unescapeBackslash_unit_append, ih, List.flatMap_cons]

theorem length_le_flatMap_meaning (es : List UnitEscape) :
    es.length ≤ (es.flatMap meaning).length := by
  induction es with
  | nil => exact Nat.le_refl 0
  | cons e es ih =>
    have he := length_meaning_pos e
    rw [List.flatMap_cons, List.length_append, List.length_cons]
    omega

/-! ### A whole text -/

/-- Whether some escapes spell a text: they name its code units one by one. -/
def Spells (es : List UnitEscape) (key : List Char) : Prop := es.map unit = utf16 key

instance (es : List UnitEscape) (key : List Char) : Decidable (Spells es key) :=
  inferInstanceAs (Decidable (es.map unit = utf16 key))

variable {es : List UnitEscape} {key : List Char}

/-- Every text can be spelled. -/
theorem exists_spells (key : List Char) : ∃ es, Spells es key := by
  refine ⟨(utf16 key).map ofUnit, ?_⟩
  rw [Spells, List.map_map]
  conv_rhs => rw [← List.map_id (utf16 key)]
  exact List.map_congr_left fun u hu => unit_ofUnit (lt_of_mem_utf16 hu)

/-- Units of the basic plane mean the characters that they are of. -/
theorem Spells.flatMap_meaning (h : Spells es key) (hbasic : ∀ c ∈ key, IsBasic c) :
    es.flatMap meaning = key := by
  induction key generalizing es with
  | nil =>
    obtain rfl : es = [] := List.map_eq_nil_iff.1 h
    rfl
  | cons c key ih =>
    obtain ⟨hc, hrest⟩ := List.forall_mem_cons.1 hbasic
    rw [Spells, utf16, List.flatMap_cons, charUtf16, if_pos hc, List.singleton_append] at h
    obtain ⟨e, es, rfl, hunit, hes⟩ := List.map_eq_cons_iff.1 h
    have hvalid : e.unit.isValidChar := hunit ▸ c.valid
    rw [List.flatMap_cons, meaning, if_pos hvalid, hunit, Char.ofNat_toNat, ih hes hrest]
    rfl

/-- **What is spelled is read back when it lies in the basic plane**, and never otherwise: each
escape gives a character at least, and there are more of them than the text has characters. -/
theorem Spells.unescape_eq_iff (h : Spells es key) :
    unescape (es.flatMap text) .backslash = key ↔ ∀ c ∈ key, IsBasic c := by
  rw [unescape, unescapeBackslash_units]
  refine ⟨fun hread => isBasic_of_units16_le ?_, h.flatMap_meaning⟩
  calc
    units16 key = es.length := by rw [← length_utf16, ← h, List.length_map]
    _ ≤ (es.flatMap meaning).length := length_le_flatMap_meaning es
    _ = key.length := by rw [hread]

/-- Fewer than three quotes hold a delimiter of one. -/
theorem delimiterLength_of_lt {rules : DelimiterRules} {run size : Nat} (h : run < 3) :
    rules.delimiterLength run size = 1 := by
  have hrun : ¬3 ≤ run := Nat.not_le.2 h
  simp [DelimiterRules.delimiterLength, hrun]

/-- A spelled text can stand between quotes: no quote stands in it. -/
theorem parse?_units (es : List UnitEscape) (rules : DelimiterRules) {q : Char} (hq : isQuote q) :
    parse? (q :: (es.flatMap text ++ [q])) rules =
      some ⟨unescape (es.flatMap text) .backslash, 1, 1 + bytes (es.flatMap text),
        ⟨"", String.singleton q, .backslash⟩⟩ := by
  have hrun : run q (quoted q 1 (es.flatMap text)) < 3 := by
    cases es with
    | nil => simp [run, quoted]
    | cons e es =>
      have hbackslash : '\\' ≠ q := by
        rcases eq_of_isQuote hq with rfl | rfl | rfl <;> decide
      simp [run, quoted, text, hbackslash]
  have hstyle : escapeStyleOf rules [] 1 = .backslash := by
    simp [escapeStyleOf]
  have hparse := @parse?_quoted rules [] q 1 _ rfl hq Nat.one_pos (delimiterLength_of_lt hrun)
  rw [styleOf, hstyle] at hparse
  exact hparse

/-- **Texts spelled in code units.** Every text can be spelled. However the digits are written, each
escape is decoded alone; what is read, from the inside of a literal or from the whole literal, is
the text exactly when it lies in the basic plane. -/
theorem unescape_codeUnits (key : List Char) :
    (∃ es, Spells es key) ∧
    ∀ es, Spells es key →
      unescape (es.flatMap text) .backslash = es.flatMap meaning ∧
      (unescape (es.flatMap text) .backslash = key ↔ ∀ c ∈ key, IsBasic c) ∧
      ∀ rules q, isQuote q → ∃ p, parse? (q :: (es.flatMap text ++ [q])) rules = some p ∧
        (p.key = key ↔ ∀ c ∈ key, IsBasic c) := by
  refine ⟨exists_spells key, fun es h => ⟨unescapeBackslash_units es, h.unescape_eq_iff, ?_⟩⟩
  intro rules q hq
  exact ⟨_, parse?_units es rules hq, h.unescape_eq_iff⟩

/-- A key of two characters in the basic plane, with digits in either case. -/
theorem unescape_codeUnits_sample :
    Spells [ofUnit 0xe9, ⟨⟨6, false⟩, ⟨5, false⟩, ⟨14, true⟩, ⟨5, false⟩⟩] "é日".toList ∧
    isQuote '"' ∧
    unescape "\\u00e9\\u65E5".toList .backslash = "é日".toList ∧
    ∃ p, parse? "\"\\u00e9\\u65E5\"".toList .single = some p ∧ p.key = "é日".toList := by
  have hspells : Spells [ofUnit 0xe9, ⟨⟨6, false⟩, ⟨5, false⟩, ⟨14, true⟩, ⟨5, false⟩⟩]
      "é日".toList := by decide +kernel
  have hall : "é日".toList.all fun c => decide (IsBasic c) := by decide +kernel
  have hbasic : ∀ c ∈ "é日".toList, IsBasic c :=
    fun c hc => of_decide_eq_true (List.all_eq_true.1 hall c hc)
  obtain ⟨-, hread, hparse⟩ := (unescape_codeUnits "é日".toList).2 _ hspells
  obtain ⟨p, hp, hkey⟩ := hparse .single '"' rfl
  exact ⟨hspells, rfl, hread.2 hbasic, p, hp, hkey.2 hbasic⟩

/-- The two escapes of a character outside the basic plane are not read as the character. -/
theorem unescape_splits_surrogates :
    Spells [ofUnit 0xd83d, ofUnit 0xde00] "😀".toList ∧
    [ofUnit 0xd83d, ofUnit 0xde00].flatMap text = "\\ud83d\\ude00".toList ∧
    unescape "\\ud83d\\ude00".toList .backslash = "\\ud83d\\ude00".toList ∧
    "\\ud83d\\ude00".toList ≠ "😀".toList := by
  have htext : [ofUnit 0xd83d, ofUnit 0xde00].flatMap text = "\\ud83d\\ude00".toList := by
    decide +kernel
  have hmeaning : [ofUnit 0xd83d, ofUnit 0xde00].flatMap meaning = "\\ud83d\\ude00".toList := by
    decide +kernel
  have hread := unescapeBackslash_units [ofUnit 0xd83d, ofUnit 0xde00]
  rw [htext, hmeaning] at hread
  exact ⟨by decide +kernel, htext, hread, by decide +kernel⟩

end Literal

end Concord
