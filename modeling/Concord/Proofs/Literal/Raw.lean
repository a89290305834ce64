import Concord.Proofs.Literal.RoundTrip

/-!
# Keys in raw literals

A raw literal has no escapes, so a key goes into it as it stands or not at all. `escape?` refuses
the keys that contain the delimiter or end with its quote, but it does not look at two things.

* How a key begins. Where a run of any length may be the delimiter, the quotes at the beginning of a
  key are taken for a part of it, and the delimiter that is then looked for at the end is not there
  (`parse?_quoted_of_head?_eq`). Any other key is read back (`parse?_quoted_of_head?_ne`).
* Line breaks, which a literal between single quotes cannot hold.

These are the only two (`parse?_rewritten_raw`).
-/

namespace Concord.Literal

open Text

/-! ### The run at the beginning -/

theorem run_replicate_append (q : Char) (n : Nat) (cs : List Char) :
    run q (List.replicate n q ++ cs) = n + run q cs := by
  rw [run, List.takeWhile_append_of_pos, List.length_append, List.length_replicate, run]
  intro c hc
  exact beq_iff_eq.2 (List.eq_of_mem_replicate hc)

theorem run_cons_self (q : Char) (cs : List Char) : run q (q :: cs) = run q cs + 1 := by
  rw [run, List.takeWhile_cons, if_pos (beq_self_eq_true q), List.length_cons, run]

theorem run_cons_of_ne {q d : Char} (h : d ≠ q) (cs : List Char) : run q (d :: cs) = 0 := by
  rw [run, List.takeWhile_cons_of_neg (by simpa using h), List.length_nil]

section Runs

variable {rules : DelimiterRules} {q : Char} {n : Nat} {key : List Char}

/-- The delimiter where a run of any length may be one. -/
theorem delimiterLength_of_rawRuns (hraw : rules.rawRuns) {run : Nat} (hrun : 3 ≤ run)
    (size : Nat) : rules.delimiterLength run size = min run (size / 2) := by
  rw [DelimiterRules.delimiterLength, hraw, Bool.true_and, if_pos (decide_eq_true hrun)]

/-- **A key that does not begin with the quote** is read back from between two runs. -/
theorem parse?_quoted_of_head?_ne (hraw : rules.rawRuns) (hq : isQuote q) (hn : 3 ≤ n)
    (hkey : key ≠ []) (hhead : key.head? ≠ some q) :
    parse? (quoted q n key) rules =
      some ⟨key, n, n + bytes key, "", String.ofList (List.replicate n q), .raw⟩ := by
  obtain ⟨d, ds, rfl⟩ := List.exists_cons_of_ne_nil hkey
  have hne : d ≠ q := fun h => hhead (congrArg some h)
  have hrun : run q (quoted q n (d :: ds)) = n := by
    rw [quoted, run_replicate_append, List.cons_append, run_cons_of_ne hne, Nat.add_zero]
  have hlength : rules.delimiterLength (run q (quoted q n (d :: ds)))
      (bytes (quoted q n (d :: ds))) = n := by
    rw [hrun, delimiterLength_of_rawRuns hraw hn, bytes_quoted hq]
    omega
  have hstyle : escapeStyleOf rules [] n = .raw := by
    rw [escapeStyleOf, hraw, Bool.true_and, decide_eq_true hn]
    rfl
  have hparse := @parse?_quoted rules [] q n _ rfl hq (by omega) hlength
  rw [styleOf, hstyle, bytes_nil, Nat.zero_add] at hparse
  exact hparse

/-- A text between runs of a quote, with no quote before the run that closes it, has no longer run
at its end. -/
theorem le_of_quoted_eq_quoted {m : Nat} {inner : List Char} (hlast : key.getLast? ≠ some q)
    (hkey : key ≠ []) (h : quoted q n key = quoted q m inner) : m ≤ n := by
  by_contra hlt
  obtain ⟨j, rfl⟩ : ∃ j, m = n + (j + 1) := ⟨m - n - 1, by omega⟩
  -- seen from the end, the shorter run is followed by the last character of the key
  have hends := congrArg List.reverse h
  simp only [quoted, List.reverse_append, List.reverse_replicate, List.append_assoc] at hends
  rw [List.replicate_add, List.append_assoc] at hends
  obtain ⟨d, ds, hd⟩ := List.exists_cons_of_ne_nil (mt List.reverse_eq_nil_iff.1 hkey)
  have hrest := List.append_cancel_left hends
  rw [hd] at hrest
  obtain ⟨rfl, -⟩ := List.cons.inj hrest
  rw [List.getLast?_eq_head?_reverse, hd] at hlast
  exact hlast rfl

/-- **A key that begins with the quote is not read back**: with it the run at the beginning is
longer than the one at the end. -/
theorem parse?_quoted_of_head?_eq (hraw : rules.rawRuns) (hq : isQuote q) (hn : 3 ≤ n)
    (hlast : key.getLast? ≠ some q) (hhead : key.head? = some q) :
    parse? (quoted q n key) rules = none := by
  obtain ⟨ds, rfl⟩ := List.head?_eq_some_iff.1 hhead
  rw [Option.eq_none_iff_forall_ne_some]
  intro p hp
  obtain ⟨lead, q', m, inner, htext, hlead, -, hm, -⟩ := exists_quoted_of_parse? hp
  have hpos : 0 < m := hm ▸ delimiterLength_pos (run_le_bytes q' _)
  obtain ⟨n', rfl⟩ : ∃ k, n = k + 1 := ⟨n - 1, by omega⟩
  obtain ⟨m', rfl⟩ : ∃ k, m = k + 1 := ⟨m - 1, by omega⟩
  -- the text begins with the quote, so nothing precedes the run
  obtain ⟨rfl, rfl⟩ : lead = [] ∧ q' = q := by
    cases lead with
    | nil => exact ⟨rfl, (List.cons.inj htext).1.symm⟩
    | cons c cs =>
      have hc : q = c := (List.cons.inj htext).1
      have hnot := not_isQuote_of_isLeadChar (List.all_eq_true.1 hlead c List.mem_cons_self)
      rw [← hc, hq] at hnot
      exact Bool.noConfusion hnot
  rw [List.nil_append] at htext
  have hshort := le_of_quoted_eq_quoted hlast (List.cons_ne_nil _ _) htext
  -- more than one character follows the opening run, the first of which makes it longer
  have hrest : ds ≠ [] := by
    rintro rfl
    exact hlast rfl
  have hbytes := length_le_bytes (q' :: ds)
  have hlength := List.length_pos_iff.2 hrest
  rw [← htext, quoted, run_replicate_append, List.cons_append, run_cons_self,
    delimiterLength_of_rawRuns hraw (by omega), ← List.cons_append, ← quoted, bytes_quoted hq] at hm
  rw [List.length_cons] at hbytes
  omega

end Runs

/-! ### What a raw literal is asked to hold -/

/-- Whether a character ends a line of code: a literal between single quotes cannot go on after
it. -/
def isLineBreak (c : Char) : Bool := c = '\n' || c = '\r'

/-- Neither what precedes the inside of a literal nor what follows it has a line break. -/
theorem exists_isLineBreak_wrap_iff {rules : DelimiterRules} {lead : List Char} {q : Char} {n : Nat}
    {inner : List Char} (hlead : lead.all isLeadChar) (hq : isQuote q) :
    (∃ c ∈ (styleOf rules lead q n).wrap inner, isLineBreak c) ↔ ∃ c ∈ inner, isLineBreak c := by
  have hleadFree : ∀ c ∈ lead, ¬ isLineBreak c := by
    intro c hc hbreak
    have hletter : isLeadChar c := List.all_eq_true.1 hlead c hc
    rw [isLineBreak, Bool.or_eq_true, decide_eq_true_eq, decide_eq_true_eq] at hbreak
    rcases hbreak with rfl | rfl <;> exact absurd hletter (by decide)
  have hquoteFree : ¬ isLineBreak q := by
    rcases eq_of_isQuote hq with rfl | rfl | rfl <;> decide
  rw [wrap_styleOf, quoted]
  constructor
  · rintro ⟨c, hc, hbreak⟩
    rw [List.mem_append, List.mem_append, List.mem_append, List.mem_replicate] at hc
    rcases hc with hc | ⟨-, rfl⟩ | hc | ⟨-, rfl⟩
    · exact absurd hbreak (hleadFree c hc)
    · exact absurd hbreak hquoteFree
    · exact ⟨c, hc, hbreak⟩
    · exact absurd hbreak hquoteFree
  · rintro ⟨c, hc, hbreak⟩
    exact ⟨c, List.mem_append_right _ (List.mem_append_right _ (List.mem_append_left _ hc)), hbreak⟩

/-- What a raw style takes for a key is the key, which does not end with the quote. -/
theorem eq_of_escape?_raw {key inner : List Char} {style : LiteralStyle}
    (hstyle : style.escape = .raw) (h : escape? key style = some inner) :
    inner = key ∧ key.getLast? ≠ some style.quoteChar := by
  simp only [escape?, hstyle, Option.ite_none_left_eq_some, Option.some.injEq] at h
  obtain ⟨hfree, rfl⟩ := h
  refine ⟨rfl, fun hlast => hfree ?_⟩
  simp [rawConflict, hlast]

/-- **Which keys a raw literal holds** of those that are written into one. Between runs of three
quotes or more such a key is read back, with the same delimiter, unless it begins with the quote,
and then nothing is read at all. Between single quotes the whole literal stays on one line unless
the key has a line break. -/
theorem parse?_rewritten_raw {text : List Char} {rules : DelimiterRules} {p : Parsed}
    (hp : parse? text rules = some p) (hstyle : p.style.escape = .raw) {key inner : List Char}
    (hkey : key ≠ []) (hinner : escape? key p.style = some inner) :
    (rules.rawRuns → 3 ≤ p.style.delimiter.length →
      parse? (p.style.delimiter.toList ++ (inner ++ p.style.delimiter.toList)) rules =
        if key.head? = some p.style.quoteChar then none
        else some ⟨key, p.style.delimiter.length, p.style.delimiter.length + bytes inner,
          "", p.style.delimiter, .raw⟩) ∧
    (p.style.delimiter.length = 1 →
      ((∃ c ∈ p.style.wrap inner, isLineBreak c) ↔ ∃ c ∈ key, isLineBreak c)) := by
  obtain ⟨rfl, hlast⟩ := eq_of_escape?_raw hstyle hinner
  obtain ⟨lead, q, n, inner, -, hlead, hq, -, rfl⟩ := exists_quoted_of_parse? hp
  refine ⟨fun hraw hlong => ?_, fun _ => exists_isLineBreak_wrap_iff hlead hq⟩
  have hdelimiter : (styleOf rules lead q n).delimiter.toList = List.replicate n q :=
    String.toList_ofList
  have hlength : (styleOf rules lead q n).delimiter.length = n := by
    rw [← String.length_toList, hdelimiter, List.length_replicate]
  dsimp only at hlong hlast ⊢
  rw [hlength] at hlong ⊢
  rw [quoteChar_styleOf (by omega)] at hlast ⊢
  rw [hdelimiter, ← quoted]
  split
  · next hhead => exact parse?_quoted_of_head?_eq hraw hq hlong hlast hhead
  · next hhead => exact parse?_quoted_of_head?_ne hraw hq hlong hkey hhead

/-- A literal between runs of three quotes, taken apart. -/
def sampleRun : Parsed := ⟨"old".toList, 3, 6, "", "\"\"\"", .raw⟩

/-- A raw literal between single quotes, taken apart. -/
def sampleRaw : Parsed := ⟨"old".toList, 2, 5, "r", "'", .raw⟩

/-- The statement above speaks of a key with quotes inside, of one with a quote at the beginning,
and of one on a single line. -/
theorem parse?_rewritten_raw_sample :
    parse? "\"\"\"old\"\"\"".toList .runs = some sampleRun ∧
    parse? "r'old'".toList .triple = some sampleRaw ∧
    parse? "\"\"\"say \"\"hi\"\" now\"\"\"".toList .runs =
      some ⟨"say \"\"hi\"\" now".toList, 3, 17, "", "\"\"\"", .raw⟩ ∧
    parse? "\"\"\"\"hi\" now\"\"\"".toList .runs = none ∧
    ((∃ c ∈ "r'C:\\new'".toList, isLineBreak c) ↔ ∃ c ∈ "C:\\new".toList, isLineBreak c) := by
  have hrun : parse? "\"\"\"old\"\"\"".toList .runs = some sampleRun := by decide +kernel
  have hraw : parse? "r'old'".toList .triple = some sampleRaw := by decide +kernel
  have hinside : escape? "say \"\"hi\"\" now".toList sampleRun.style =
      some "say \"\"hi\"\" now".toList := by decide +kernel
  have hfirst : escape? "\"hi\" now".toList sampleRun.style = some "\"hi\" now".toList := by
    decide +kernel
  have hline : escape? "C:\\new".toList sampleRaw.style = some "C:\\new".toList := by
    decide +kernel
  have hheld := (parse?_rewritten_raw hrun rfl (by decide) hinside).1 rfl (by decide)
  have hlost := (parse?_rewritten_raw hrun rfl (by decide) hfirst).1 rfl (by decide)
  exact ⟨hrun, hraw, hheld, hlost, (parse?_rewritten_raw hraw rfl (by decide) hline).2 rfl⟩

/-- **Two keys that are written into raw literals that cannot hold them**: one that begins with a
quote, between runs of three quotes, after which nothing can be read; and one with a line break,
between single quotes. -/
theorem escape?_raw_accepts_unheld :
    parse? "\"\"\"old\"\"\"".toList .runs = some sampleRun ∧ sampleRun.style.escape = .raw ∧
    escape? "\"x".toList sampleRun.style = some "\"x".toList ∧
    parse? (sampleRun.style.delimiter.toList ++ ("\"x".toList ++
      sampleRun.style.delimiter.toList)) .runs = none ∧
    parse? "r'old'".toList .triple = some sampleRaw ∧ sampleRaw.style.escape = .raw ∧
    sampleRaw.style.delimiter.length = 1 ∧
    escape? "a\nb".toList sampleRaw.style = some "a\nb".toList ∧
    ∃ c ∈ "a\nb".toList, isLineBreak c := by
  refine ⟨?_, rfl, ?_, ?_, ?_, rfl, rfl, ?_, '\n', ?_, rfl⟩ <;> decide +kernel

end Concord.Literal
