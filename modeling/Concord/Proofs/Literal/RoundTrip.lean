import Concord.Literal.Escape
import Concord.Literal.Parser
import Mathlib.Data.List.Infix

/-!
# Literals written for a key

A literal that is taken apart consists of a prefix, a run of one quote, an inside, and the same run
again (`exists_quoted_of_parse?`), and stands between the offsets that are found for it
(`exists_pieces_of_parse?`); what is put together in that way is taken apart again
(`parse?_quoted`). The delicate part is the run: how long it is depends on how many quotes stand at
the beginning of what follows the prefix, so an inside that begins with a quote can change it.

What `escape?` writes between single quotes begins with none of them (`exists_cons_of_escape?`) –
except where a quote is doubled, and there triple quotes must not be looked for – and is read back
as the key (`unescape_escape?`). So the literal that a rename writes stands for the new key
(`parse?_rewritten`).
-/

namespace Concord.Literal

open Text

/-! ### Reading back what was escaped -/

theorem eq_of_isQuote {q : Char} (hq : isQuote q) : q = '"' ∨ q = '\'' ∨ q = '\x60' := by
  simpa [isQuote, or_assoc] using hq

/-- **How a character is escaped**: it stands for itself, being neither a backslash nor the quote,
or it is written as an escape that is read back as it. -/
theorem escapeChar_cases {q : Char} (hq : isQuote q) (c : Char) :
    (escapeChar q c = [c] ∧ c ≠ '\\' ∧ c ≠ q) ∨
      ∃ d, escapeChar q c = ['\\', d] ∧ ∀ cs, escapeSequence (d :: cs) = ([c], cs) := by
  rw [escapeChar]
  by_cases hbackslash : c = '\\'
  · subst hbackslash
    exact .inr ⟨'\\', rfl, fun _ => rfl⟩
  rw [if_neg hbackslash]
  by_cases hfeed : c = '\n'
  · subst hfeed
    exact .inr ⟨'n', rfl, fun _ => rfl⟩
  rw [if_neg hfeed]
  by_cases hreturn : c = '\r'
  · subst hreturn
    exact .inr ⟨'r', rfl, fun _ => rfl⟩
  rw [if_neg hreturn]
  by_cases htab : c = '\t'
  · subst htab
    exact .inr ⟨'t', rfl, fun _ => rfl⟩
  rw [if_neg htab]
  by_cases hdollar : c = '$' ∧ q = '\x60'
  · rw [if_pos hdollar, hdollar.1]
    exact .inr ⟨'$', rfl, fun _ => rfl⟩
  rw [if_neg hdollar]
  by_cases hquote : c = q
  · rw [if_pos hquote, hquote]
    rcases eq_of_isQuote hq with rfl | rfl | rfl
    · exact .inr ⟨'"', rfl, fun _ => rfl⟩
    · exact .inr ⟨'\'', rfl, fun _ => rfl⟩
    · exact .inr ⟨'\x60', rfl, fun _ => rfl⟩
  · rw [if_neg hquote]
    exact .inl ⟨rfl, hbackslash, hquote⟩

/-- One escaped character is read back as itself, whatever follows it. -/
theorem unescapeBackslash_escapeChar {q : Char} (hq : isQuote q) (c : Char) (cs : List Char) :
    unescapeBackslash (escapeChar q c ++ cs) = c :: unescapeBackslash cs := by
  rcases escapeChar_cases hq c with ⟨hc, hbackslash, -⟩ | ⟨d, hd, hread⟩
  · rw [hc, List.singleton_append, unescapeBackslash, if_neg hbackslash]
  · rw [hd, List.cons_append, List.singleton_append, unescapeBackslash, if_pos rfl, hread,
      List.singleton_append]

theorem unescapeBackslash_flatMap_escapeChar {q : Char} (hq : isQuote q) (key : List Char) :
    unescapeBackslash (key.flatMap (escapeChar q)) = key := by
  induction key with
  | nil => rw [List.flatMap_nil, unescapeBackslash]
  | cons c cs ih => rw [List.flatMap_cons, unescapeBackslash_escapeChar hq, ih]

theorem unescapeDoubled_flatMap_doubleQuote (key : List Char) :
    unescapeDoubled (key.flatMap doubleQuote) = key := by
  induction key with
  | nil => rfl
  | cons c cs ih =>
    rw [List.flatMap_cons, doubleQuote]
    by_cases hc : c = '"'
    · rw [if_pos hc, hc]
      change '"' :: unescapeDoubled (cs.flatMap doubleQuote) = _
      rw [ih]
    · rw [if_neg hc, List.singleton_append, unescapeDoubled.eq_2, ih]
      exact fun _ h => absurd h hc

/-- **What is escaped for a style is read back as the key.** -/
theorem unescape_escape? {key inner : List Char} {style : LiteralStyle}
    (hq : isQuote style.quoteChar) (h : escape? key style = some inner) :
    unescape inner style.escape = key := by
  rw [escape?] at h
  cases hescape : style.escape with
  | raw =>
    simp only [hescape, Option.ite_none_left_eq_some, Option.some.injEq] at h
    rw [← h.2]
    rfl
  | doubledQuote =>
    simp only [hescape, Option.some.injEq] at h
    rw [← h]
    exact unescapeDoubled_flatMap_doubleQuote key
  | backslash =>
    simp only [hescape, Option.some.injEq] at h
    rw [← h]
    exact unescapeBackslash_flatMap_escapeChar hq key

/-! ### How an escaped key begins -/

/-- **An escaped key begins with no quote** of the kind it is escaped for. -/
theorem exists_flatMap_escapeChar_eq_cons {q : Char} (hq : isQuote q) {key : List Char}
    (hkey : key ≠ []) : ∃ d ds, key.flatMap (escapeChar q) = d :: ds ∧ d ≠ q := by
  obtain ⟨c, cs, rfl⟩ := List.exists_cons_of_ne_nil hkey
  have hbackslash : '\\' ≠ q := by
    rcases eq_of_isQuote hq with rfl | rfl | rfl <;> decide
  rcases escapeChar_cases hq c with ⟨hc, -, hne⟩ | ⟨d, hd, -⟩
  · exact ⟨c, cs.flatMap (escapeChar q), by rw [List.flatMap_cons, hc, List.singleton_append], hne⟩
  · exact ⟨'\\', d :: cs.flatMap (escapeChar q), by rw [List.flatMap_cons, hd]; rfl, hbackslash⟩

/-! ### Taking a literal apart -/

/-- What follows the prefix of a literal: the inside between two runs of `n` quotes. -/
def quoted (quote : Char) (n : Nat) (inner : List Char) : List Char :=
  List.replicate n quote ++ (inner ++ List.replicate n quote)

/-- How many quotes of a kind a text begins with. -/
def run (quote : Char) (cs : List Char) : Nat := (cs.takeWhile (· == quote)).length

/-- The style of a literal with a given prefix and delimiter. -/
def styleOf (rules : DelimiterRules) (lead : List Char) (quote : Char) (n : Nat) : LiteralStyle :=
  ⟨String.ofList lead, String.ofList (List.replicate n quote), escapeStyleOf rules lead n⟩

theorem bytes_replicate {q : Char} (hq : isQuote q) (n : Nat) : bytes (List.replicate n q) = n := by
  have hsize : q.utf8Size = 1 := by
    rcases eq_of_isQuote hq with rfl | rfl | rfl <;> rfl
  induction n with
  | zero => rfl
  | succ n ih =>
    rw [List.replicate_succ, bytes_cons, hsize, ih, Nat.add_comm]

theorem bytes_quoted {q : Char} (hq : isQuote q) (n : Nat) (inner : List Char) :
    bytes (quoted q n inner) = n + (bytes inner + n) := by
  rw [quoted, bytes_append, bytes_append, bytes_replicate hq]

/-- No character of a prefix is a quote. -/
theorem not_isQuote_of_isLeadChar {c : Char} (h : isLeadChar c) : isQuote c = false := by
  rw [Bool.eq_false_iff]
  intro hq
  rcases eq_of_isQuote hq with rfl | rfl | rfl <;> exact absurd h (by decide)

/-- A delimiter is never longer than the run of quotes that it is cut from. -/
theorem delimiterLength_le {rules : DelimiterRules} {run size : Nat} (hrun : 0 < run) :
    rules.delimiterLength run size ≤ run := by
  rw [DelimiterRules.delimiterLength]
  split
  · exact Nat.min_le_left _ _
  · split
    · next h => exact of_decide_eq_true (Bool.and_eq_true_iff.1 h).2
    · exact hrun

theorem take_eq_replicate {q : Char} {n : Nat} {cs : List Char} (h : n ≤ run q cs) :
    cs.take n = List.replicate n q := by
  have htake : cs.take n = (cs.takeWhile (· == q)).take n := by
    conv_lhs => rw [← List.takeWhile_append_dropWhile (p := (· == q)) (l := cs)]
    exact List.take_append_of_le_length h
  have hlength : ((cs.takeWhile (· == q)).take n).length = n := List.length_take_of_le h
  rw [htake, List.eq_replicate_iff]
  refine ⟨hlength, fun c hc => ?_⟩
  exact eq_of_beq (List.all_eq_true.1 List.all_takeWhile c (List.mem_of_mem_take hc))

/-- **What a literal that is taken apart looks like**: a prefix, and an inside between two runs of
quotes as long as the rules say. -/
theorem exists_quoted_of_parse? {text : List Char} {rules : DelimiterRules} {p : Parsed}
    (h : parse? text rules = some p) :
    ∃ lead q n inner, text = lead ++ quoted q n inner ∧ lead.all isLeadChar ∧ isQuote q ∧
      rules.delimiterLength (run q (quoted q n inner)) (bytes (quoted q n inner)) = n ∧
      p = ⟨unescape inner (escapeStyleOf rules lead n), bytes lead + n,
        bytes lead + n + bytes inner, styleOf rules lead q n⟩ := by
  rw [parse?] at h
  dsimp only at h
  split at h
  · simp at h
  · next q body hrest =>
    have hq : isQuote q := by
      have hhead := List.head?_dropWhile_not (fun c => !isQuote c) text
      rw [hrest] at hhead
      simpa using hhead
    generalize hlead : text.takeWhile (fun c => !isQuote c) = lead at h
    have htext : text = lead ++ q :: body := by
      rw [← hlead, ← hrest, List.takeWhile_append_dropWhile]
    generalize hn : rules.delimiterLength ((q :: body).takeWhile (· == q)).length
      (bytes (q :: body)) = n at h
    have hrun : 0 < run q (q :: body) := by
      simp [run]
    have hopen : (q :: body).take n = List.replicate n q := by
      refine take_eq_replicate ?_
      rw [← hn]
      exact delimiterLength_le hrun
    rw [hopen] at h
    rw [Option.ite_none_left_eq_some, Option.ite_none_left_eq_some, Bool.not_eq_true,
      Bool.not_eq_false', Bool.not_eq_true, Bool.or_eq_false_iff, Bool.not_eq_false',
      List.isSuffixOf_iff_suffix, List.suffix_iff_eq_append, List.length_replicate] at h
    obtain ⟨hleadChars, ⟨-, hclose⟩, hp⟩ := h
    -- the inside is what the closing delimiter leaves of what follows the opening one
    have hquoted : q :: body =
        quoted q n (((q :: body).drop n).take (((q :: body).drop n).length - n)) := by
      rw [quoted, hclose, ← hopen, List.take_append_drop]
    refine ⟨lead, q, n, ((q :: body).drop n).take (((q :: body).drop n).length - n), ?_,
      hleadChars, hq, ?_, (Option.some.inj hp).symm⟩
    · rw [← hquoted, htext]
    · rw [← hquoted, run, hn]

/-- **A literal put together from such parts is taken apart into them.** -/
theorem parse?_quoted {rules : DelimiterRules} {lead : List Char} {q : Char} {n : Nat}
    {inner : List Char} (hlead : lead.all isLeadChar) (hq : isQuote q) (hpos : 0 < n)
    (hn : rules.delimiterLength (run q (quoted q n inner)) (bytes (quoted q n inner)) = n) :
    parse? (lead ++ quoted q n inner) rules =
      some ⟨unescape inner (escapeStyleOf rules lead n), bytes lead + n,
        bytes lead + n + bytes inner, styleOf rules lead q n⟩ := by
  obtain ⟨m, rfl⟩ : ∃ m, n = m + 1 := Nat.exists_eq_add_one.2 hpos
  have hcons : quoted q (m + 1) inner =
      q :: (List.replicate m q ++ (inner ++ List.replicate (m + 1) q)) := rfl
  have hscan : ∀ c ∈ lead, (!isQuote c) = true := by
    intro c hc
    rw [not_isQuote_of_isLeadChar (List.all_eq_true.1 hlead c hc)]
    rfl
  have htake : (lead ++ quoted q (m + 1) inner).takeWhile (fun c => !isQuote c) = lead := by
    rw [hcons, List.takeWhile_append_of_pos hscan, List.takeWhile_cons_of_neg (by simp [hq]),
      List.append_nil]
  have hdrop : (lead ++ quoted q (m + 1) inner).dropWhile (fun c => !isQuote c) =
      quoted q (m + 1) inner := by
    rw [List.dropWhile_append_of_pos hscan, hcons, List.dropWhile_cons_of_neg (by simp [hq])]
  have hopen : (quoted q (m + 1) inner).take (m + 1) = List.replicate (m + 1) q := by
    rw [quoted, List.take_left' List.length_replicate]
  have hclose : (quoted q (m + 1) inner).drop (m + 1) = inner ++ List.replicate (m + 1) q := by
    rw [quoted, List.drop_left' List.length_replicate]
  have hlong : ¬ bytes (quoted q (m + 1) inner) < 2 * (m + 1) := by
    rw [bytes_quoted hq]
    omega
  rw [parse?, htake, hdrop]
  simp only [hcons]
  simp only [← hcons]
  rw [run] at hn
  rw [hn, hopen, hclose]
  simp [hlead, hlong, styleOf]

/-! ### Writing a key into a literal -/

section Styles

variable {rules : DelimiterRules} {lead : List Char} {q : Char} {n : Nat}

theorem quoteChar_styleOf (hn : 0 < n) : (styleOf rules lead q n).quoteChar = q := by
  obtain ⟨m, rfl⟩ : ∃ m, n = m + 1 := Nat.exists_eq_add_one.2 hn
  rw [LiteralStyle.quoteChar, styleOf, String.toList_ofList]
  rfl

theorem wrap_styleOf (inner : List Char) :
    (styleOf rules lead q n).wrap inner = lead ++ quoted q n inner := by
  simp [LiteralStyle.wrap, styleOf, quoted]

/-- Without runs of any length, a delimiter has three quotes or one. -/
theorem delimiterLength_cases (hraw : rules.rawRuns = false) {run size : Nat}
    (hn : rules.delimiterLength run size = n) : n = 3 ∧ rules.tripleQuotes ∨ n = 1 := by
  rw [DelimiterRules.delimiterLength, hraw, Bool.false_and, if_neg Bool.false_ne_true] at hn
  split at hn
  · next h => exact .inl ⟨hn.symm, (Bool.and_eq_true_iff.1 h).1⟩
  · exact .inr hn.symm

/-- **The delimiter is found again**, unless an inside that begins with its quote makes three quotes
of one. -/
theorem delimiterLength_quoted (hraw : rules.rawRuns = false)
    (hn : n = 3 ∧ rules.tripleQuotes ∨ n = 1) {inner : List Char}
    (hinner : n = 1 → rules.tripleQuotes → ∃ d ds, inner = d :: ds ∧ d ≠ q) :
    rules.delimiterLength (run q (quoted q n inner)) (bytes (quoted q n inner)) = n := by
  rw [DelimiterRules.delimiterLength, hraw, Bool.false_and, if_neg Bool.false_ne_true]
  rcases hn with ⟨rfl, htriple⟩ | rfl
  · have hrun : 3 ≤ run q (quoted q 3 inner) := by
      simp only [run, quoted, List.replicate, List.cons_append, List.takeWhile_cons,
        beq_self_eq_true, if_true, List.length_cons]
      omega
    rw [htriple, Bool.true_and, if_pos (decide_eq_true hrun)]
  · cases htriple : rules.tripleQuotes with
    | false => rfl
    | true =>
      obtain ⟨d, ds, rfl, hne⟩ := hinner rfl htriple
      have hrun : run q (quoted q 1 (d :: ds)) = 1 := by
        simp [run, quoted, hne]
      rw [hrun]
      rfl

end Styles

theorem length_le_bytes (cs : List Char) : cs.length ≤ bytes cs := by
  induction cs with
  | nil => exact Nat.le_refl 0
  | cons c cs ih =>
    have hpos := c.utf8Size_pos
    rw [List.length_cons, bytes_cons]
    omega

theorem run_le_bytes (q : Char) (cs : List Char) : run q cs ≤ bytes cs :=
  Nat.le_trans (List.takeWhile_sublist _).length_le (length_le_bytes cs)

/-- A literal that begins with a quote has a delimiter: half of a run of three quotes is one. -/
theorem delimiterLength_pos {rules : DelimiterRules} {run size : Nat} (h : run ≤ size) :
    0 < rules.delimiterLength run size := by
  rw [DelimiterRules.delimiterLength]
  split
  · next hraw =>
    have hrun : 3 ≤ run := of_decide_eq_true (Bool.and_eq_true_iff.1 hraw).2
    omega
  · split <;> omega

/-- **A literal that is taken apart goes beyond its inside on both sides**, by its prefix and by its
delimiters. -/
theorem exists_pieces_of_parse? {text : List Char} {rules : DelimiterRules} {p : Parsed}
    (h : parse? text rules = some p) :
    ∃ opening inner closing, text = opening ++ (inner ++ closing) ∧ opening ≠ [] ∧ closing ≠ [] ∧
      bytes opening = p.innerStart ∧ bytes (opening ++ inner) = p.innerStop ∧
      text = p.style.wrap inner ∧ unescape inner p.style.escape = p.key := by
  obtain ⟨lead, q, n, inner, rfl, -, hq, hn, rfl⟩ := exists_quoted_of_parse? h
  have hpos : 0 < n := by
    rw [← hn]
    exact delimiterLength_pos (run_le_bytes q _)
  have hdelimiter : List.replicate n q ≠ [] := by
    rw [Ne, List.replicate_eq_nil_iff]
    omega
  refine ⟨lead ++ List.replicate n q, inner, List.replicate n q, ?_,
    List.append_ne_nil_of_right_ne_nil _ hdelimiter, hdelimiter, ?_, ?_, (wrap_styleOf inner).symm,
    rfl⟩
  · rw [quoted, List.append_assoc]
  · rw [bytes_append, bytes_replicate hq]
  · rw [bytes_append, bytes_append, bytes_replicate hq]

theorem quoteChar_not_mem_of_rawConflict {key : List Char} {style : LiteralStyle}
    (hdelimiter : style.delimiter.utf8ByteSize = 1) (h : rawConflict key style = false) :
    style.quoteChar ∉ key := by
  intro hmem
  rw [rawConflict] at h
  simp [hdelimiter, hmem] at h

/-- **The inside written between single quotes begins with none**, except where a quote is
doubled. -/
theorem exists_cons_of_escape? {key inner : List Char} {style : LiteralStyle}
    (hq : isQuote style.quoteChar) (hdelimiter : style.delimiter.utf8ByteSize = 1)
    (hescape : style.escape ≠ .doubledQuote) (hkey : key ≠ [])
    (h : escape? key style = some inner) :
    ∃ d ds, inner = d :: ds ∧ d ≠ style.quoteChar := by
  rw [escape?] at h
  cases hstyle : style.escape with
  | raw =>
    simp only [hstyle, Option.ite_none_left_eq_some, Option.some.injEq] at h
    obtain ⟨hfree, rfl⟩ := h
    obtain ⟨d, ds, rfl⟩ := List.exists_cons_of_ne_nil hkey
    refine ⟨d, ds, rfl, ?_⟩
    rintro rfl
    exact quoteChar_not_mem_of_rawConflict hdelimiter (Bool.eq_false_iff.2 hfree)
      List.mem_cons_self
  | doubledQuote => exact absurd hstyle hescape
  | backslash =>
    simp only [hstyle, Option.some.injEq] at h
    rw [← h]
    exact exists_flatMap_escapeChar_eq_cons hq hkey

theorem escapeStyleOf_eq_doubledQuote_iff {rules : DelimiterRules} {lead : List Char} {n : Nat} :
    escapeStyleOf rules lead n = .doubledQuote ↔ '@' ∈ lead := by
  rw [escapeStyleOf]
  split
  · next h => exact ⟨fun _ => by simpa using h, fun _ => rfl⟩
  · next h =>
    refine ⟨fun hstyle => ?_, fun hmem => absurd (by simpa using hmem) h⟩
    split at hstyle <;> simp at hstyle

/-- An inside that was escaped begins with no quote, wherever triple quotes are looked for. -/
theorem exists_cons_of_escape?_styleOf {rules : DelimiterRules} {lead : List Char} {q : Char}
    (hq : isQuote q) (hverbatim : '@' ∈ lead → rules.tripleQuotes = false)
    {key inner : List Char} (hkey : key ≠ [])
    (hinner : escape? key (styleOf rules lead q 1) = some inner) (htriple : rules.tripleQuotes) :
    ∃ d ds, inner = d :: ds ∧ d ≠ q := by
  have hquote : (styleOf rules lead q 1).quoteChar = q := quoteChar_styleOf Nat.one_pos
  have hsingle : (styleOf rules lead q 1).delimiter.utf8ByteSize = 1 := by
    rcases eq_of_isQuote hq with rfl | rfl | rfl <;> rfl
  have hescape : (styleOf rules lead q 1).escape ≠ .doubledQuote := by
    intro hdoubled
    rw [hverbatim (escapeStyleOf_eq_doubledQuote_iff.1 hdoubled)] at htriple
    exact Bool.false_ne_true htriple
  obtain ⟨d, ds, hd, hne⟩ :=
    exists_cons_of_escape? (hquote.symm ▸ hq) hsingle hescape hkey hinner
  exact ⟨d, ds, hd, hquote ▸ hne⟩

/-- **Between double quotes any key can stand.** -/
theorem parse?_doubleQuoted {rules : DelimiterRules} (hraw : rules.rawRuns = false)
    {key : List Char} (hkey : key ≠ []) :
    parse? (doubleQuoted key) rules =
      some ⟨key, 1, 1 + bytes (key.flatMap (escapeChar '"')), .doubleQuoted⟩ := by
  have hdouble : isQuote '"' := rfl
  have hfirst := exists_flatMap_escapeChar_eq_cons hdouble hkey
  have hparse := @parse?_quoted rules [] '"' 1 _ rfl hdouble Nat.one_pos
    (delimiterLength_quoted hraw (.inr rfl) fun _ _ => hfirst)
  have hstyle : escapeStyleOf rules [] 1 = .backslash := by
    rw [escapeStyleOf, hraw]
    rfl
  rw [hstyle, unescape, unescapeBackslash_flatMap_escapeChar hdouble, styleOf, hstyle] at hparse
  exact hparse

/-- What stands between the delimiters. -/
theorem slice_quoted {q : Char} (hq : isQuote q) (lead : List Char) (n : Nat)
    (inner : List Char) : slice (bytes lead + n) (bytes lead + n + bytes inner)
      (lead ++ quoted q n inner) = inner := by
  have hstart : bytes lead + n = bytes (lead ++ List.replicate n q) := by
    rw [bytes_append, bytes_replicate hq]
  rw [hstart, quoted, ← List.append_assoc, slice_bytes_append]

/-- **The literal that a rename writes stands for the new key.** Where the style of a literal can
hold the key, the literal written in that style is taken apart into the key, the same style and
exactly the inside that was written; where it cannot, the double-quoted literal is taken apart into
the key. -/
theorem parse?_rewritten {text : List Char} {rules : DelimiterRules} {p : Parsed}
    (hp : parse? text rules = some p) (hraw : rules.rawRuns = false)
    (hverbatim : '@' ∈ p.style.lead.toList → rules.tripleQuotes = false) {key : List Char}
    (hkey : key ≠ []) :
    match escape? key p.style with
    | some inner =>
      parse? (p.style.wrap inner) rules =
          some ⟨key, p.innerStart, p.innerStart + bytes inner, p.style⟩ ∧
        slice p.innerStart (p.innerStart + bytes inner) (p.style.wrap inner) = inner
    | none =>
      parse? (doubleQuoted key) rules =
        some ⟨key, 1, 1 + bytes (key.flatMap (escapeChar '"')), .doubleQuoted⟩ := by
  obtain ⟨lead, q, n, inner, rfl, hlead, hq, hn, rfl⟩ := exists_quoted_of_parse? hp
  have hlength := delimiterLength_cases hraw hn
  have hpos : 0 < n := by
    rcases hlength with ⟨rfl, -⟩ | rfl <;> omega
  have hquote : (styleOf rules lead q n).quoteChar = q := quoteChar_styleOf hpos
  dsimp only at hverbatim ⊢
  rw [styleOf, String.toList_ofList] at hverbatim
  split
  · next inner hinner =>
    have hread : unescape inner (escapeStyleOf rules lead n) = key :=
      unescape_escape? (hquote.symm ▸ hq) hinner
    have hfirst : n = 1 → rules.tripleQuotes → ∃ d ds, inner = d :: ds ∧ d ≠ q := by
      rintro rfl htriple
      exact exists_cons_of_escape?_styleOf hq hverbatim hkey hinner htriple
    rw [wrap_styleOf, parse?_quoted hlead hq hpos (delimiterLength_quoted hraw hlength hfirst),
      hread]
    exact ⟨rfl, slice_quoted hq lead n inner⟩
  · exact parse?_doubleQuoted hraw hkey

/-- A raw literal, taken apart. -/
def sampleParsed : Parsed := ⟨"C:\\new".toList, 2, 8, ⟨"r", "\"", .raw⟩⟩

/-- The statement above speaks of a raw literal, of a key that it can hold and of one that it
cannot. -/
theorem parse?_rewritten_sample :
    parse? "r\"C:\\new\"".toList .triple = some sampleParsed ∧
    ('@' ∈ sampleParsed.style.lead.toList → DelimiterRules.triple.tripleQuotes = false) ∧
    parse? "r\"it's\"".toList .triple = some ⟨"it's".toList, 2, 6, ⟨"r", "\"", .raw⟩⟩ ∧
    parse? "\"\\\"$x\\\"\\\\\"".toList .triple =
      some ⟨"\"$x\"\\".toList, 1, 9, .doubleQuoted⟩ := by
  have hp : parse? "r\"C:\\new\"".toList .triple = some sampleParsed := by decide +kernel
  have hverbatim : '@' ∈ sampleParsed.style.lead.toList →
      DelimiterRules.triple.tripleQuotes = false := by decide
  have hheld : escape? "it's".toList sampleParsed.style = some "it's".toList := by decide +kernel
  have hrefused : escape? "\"$x\"\\".toList sampleParsed.style = none := by decide +kernel
  have hkey : "it's".toList ≠ [] := by decide
  have hkey' : "\"$x\"\\".toList ≠ [] := by decide
  have hraw := parse?_rewritten hp rfl hverbatim hkey
  have hdouble := parse?_rewritten hp rfl hverbatim hkey'
  rw [hheld] at hraw
  rw [hrefused] at hdouble
  exact ⟨hp, hverbatim, hraw.1, hdouble⟩

end Concord.Literal
