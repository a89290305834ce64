import Concord.Catalog.Parser
import Concord.Proofs.Text.Lines
import Mathlib.Data.List.TakeWhile

/-!
# Lines with a quoted string

A line that opens an entry is, between blanks, the word `msgid`, a gap and a quoted string
(`ofRaw_eq_id_iff`); a line that continues a string is a quoted string between blanks
(`exists_quoted_of_continuation`). Neither the blanks nor the word hold a quote, so the range of
such a line is exactly that of its quoted string (`quoteRange_eq`).
-/

namespace Concord

namespace Text

theorem trimStart_append {b : List Char} (hb : ∀ c ∈ b, isBlank c) (cs : List Char) :
    trimStart (b ++ cs) = trimStart cs :=
  List.dropWhile_append_of_pos hb

theorem trimEnd_append {b : List Char} (hb : ∀ c ∈ b, isBlank c) (cs : List Char) :
    trimEnd (cs ++ b) = trimEnd cs := by
  rw [trimEnd, List.reverse_append, List.dropWhile_append_of_pos, trimEnd]
  exact fun c hc => hb c (List.mem_reverse.1 hc)

/-- **Blanks around a text that neither begins nor ends with one** are trimmed. -/
theorem trim_append_append {lead post core : List Char} {a z : Char}
    (hlead : ∀ c ∈ lead, isBlank c) (hpost : ∀ c ∈ post, isBlank c) (ha : ∃ w, core = a :: w)
    (haBlank : ¬ isBlank a) (hz : ∃ w, core = w ++ [z]) (hzBlank : ¬ isBlank z) :
    trim (lead ++ (core ++ post)) = core := by
  obtain ⟨w, ha⟩ := ha
  obtain ⟨w', hz⟩ := hz
  have hstart : trimStart (core ++ post) = core ++ post := by
    rw [ha, trimStart, List.cons_append, List.dropWhile_cons_of_neg haBlank]
  have hstop : trimEnd core = core := by
    rw [hz, trimEnd, List.reverse_concat, List.dropWhile_cons_of_neg hzBlank, ← List.reverse_concat,
      List.reverse_reverse]
  rw [trim, trimStart_append hlead, hstart, trimEnd_append hpost, hstop]

/-- A text that neither begins nor ends with a blank is left as it is. -/
theorem trim_of_ends {core : List Char} {a z : Char} (ha : ∃ w, core = a :: w)
    (haBlank : ¬ isBlank a) (hz : ∃ w, core = w ++ [z]) (hzBlank : ¬ isBlank z) :
    trim core = core := by
  have h : trim ([] ++ (core ++ [])) = core :=
    trim_append_append (by simp) (by simp) ha haBlank hz hzBlank
  rwa [List.nil_append, List.append_nil] at h

/-- Trimming leaves what follows the first blanks, but for blanks at its end. -/
theorem exists_trim_append (cs : List Char) :
    ∃ post, trim cs ++ post = trimStart cs ∧ ∀ c ∈ post, isBlank c := by
  refine ⟨((trimStart cs).reverse.takeWhile isBlank).reverse, ?_, fun c hc => ?_⟩
  · rw [trim, trimEnd, ← List.reverse_append, List.takeWhile_append_dropWhile, List.reverse_reverse]
  · exact List.mem_takeWhile_imp (List.mem_reverse.1 hc)

/-- A text is what trimming leaves of it, between blanks. -/
theorem exists_blanks (cs : List Char) :
    ∃ lead post, cs = lead ++ (trim cs ++ post) ∧ (∀ c ∈ lead, isBlank c) ∧
      ∀ c ∈ post, isBlank c := by
  obtain ⟨post, hpost, hblank⟩ := exists_trim_append cs
  refine ⟨cs.takeWhile isBlank, post, ?_, fun c hc => List.mem_takeWhile_imp hc, hblank⟩
  rw [hpost, trimStart, List.takeWhile_append_dropWhile]

end Text

namespace Catalog

open Text

theorem not_isBlank_quote : ¬ isBlank '"' := by decide

theorem quote_not_mem_of_blanks {b : List Char} (hb : ∀ c ∈ b, isBlank c) : '"' ∉ b :=
  fun h => not_isBlank_quote (hb _ h)

/-! ### Quoted strings -/

/-- What is read as a quoted string stands between two quotes. -/
theorem eq_of_unquote? {quoted text : List Char} (h : Quoted.unquote? quoted = some text) :
    ∃ inner, quoted = '"' :: (inner ++ ['"']) := by
  obtain ⟨inner, hinner, -⟩ := Option.bind_eq_some_iff.1 h
  rw [Quoted.inside?.eq_def] at hinner
  split at hinner
  · split at hinner
    · next rest hlast =>
      refine ⟨rest.dropLast, ?_⟩
      rw [List.dropLast_append_getLast? '"' hlast]
    · simp at hinner
  · simp at hinner

/-- A text written between quotes stays on its line. -/
theorem newline_not_mem_quote (s : List Char) : '\n' ∉ Quoted.quote s := by
  have hescape : '\n' ∉ Quoted.escape s := by
    rw [Quoted.escape, List.mem_flatMap]
    rintro ⟨c, -, hc⟩
    rw [Quoted.escapeChar.eq_def] at hc
    split at hc
    -- a character that stands for itself is not the line feed, which has an escape of its own
    case h_6 _ _ h _ _ => exact h (List.mem_singleton.1 hc).symm
    all_goals simp at hc
  simp [Quoted.quote, hescape]

/-- **The range of a line is that of its quoted string**, when no other part holds a quote. -/
theorem quoteRange_eq {line : Nat} {lead post inner : List Char} (hlead : '"' ∉ lead)
    (hpost : '"' ∉ post) :
    quoteRange line (lead ++ ('"' :: (inner ++ ['"']) ++ post)) =
      ⟨⟨line, units16 lead⟩, ⟨line, units16 (lead ++ '"' :: (inner ++ ['"']))⟩⟩ := by
  have hbefore : (lead ++ ('"' :: (inner ++ ['"']) ++ post)).takeWhile (· ≠ '"') = lead := by
    rw [List.takeWhile_append_of_pos]
    · simp
    · intro c hc
      simpa using fun he : c = '"' => hlead (he ▸ hc)
  have hupTo : ((lead ++ ('"' :: (inner ++ ['"']) ++ post)).reverse.dropWhile (· ≠ '"')).reverse =
      lead ++ '"' :: (inner ++ ['"']) := by
    rw [show lead ++ ('"' :: (inner ++ ['"']) ++ post) =
      (lead ++ '"' :: inner ++ ['"']) ++ post by simp, List.reverse_append,
      List.dropWhile_append_of_pos]
    · simp
    · intro c hc
      simpa using fun he : c = '"' => hpost (he ▸ List.mem_reverse.1 hc)
  rw [quoteRange, hbefore, hupTo, Range.between_of_column_le]
  rw [units16_append]
  omega

/-! ### Lines that open an entry -/

theorem after?_eq_some_iff {word cs rest : List Char} :
    after? word cs = some rest ↔ cs = word ++ rest := by
  rw [after?]
  constructor
  · intro h
    split at h
    · next hprefix =>
      obtain ⟨tail, rfl⟩ := List.isPrefixOf_iff_prefix.1 hprefix
      rw [List.drop_left, Option.some_inj] at h
      rw [h]
    · simp at h
  · rintro rfl
    rw [if_pos (List.isPrefixOf_iff_prefix.2 (List.prefix_append word rest)), List.drop_left]

theorem eq_of_leadingKeyword?_id {cs token rest : List Char}
    (h : leadingKeyword? cs = some (.id, token, rest)) : cs = "msgid".toList ++ rest := by
  rw [leadingKeyword?] at h
  split at h
  · simp at h
  · split at h
    · simp at h
    · split at h
      · next hid =>
        obtain ⟨-, -, rfl⟩ : Keyword.id = .id ∧ "msgid".toList = token ∧ _ = rest := by
          simpa using h
        exact after?_eq_some_iff.1 hid
      · split at h
        · simp at h
        · split at h <;> simp at h

/-- The word is not taken for a longer one when something blank follows it. -/
theorem leadingKeyword?_id {c : Char} (hc : isBlank c) (cs : List Char) :
    leadingKeyword? ("msgid".toList ++ c :: cs) = some (.id, "msgid".toList, c :: cs) := by
  have hcontext : after? "msgctxt".toList ("msgid".toList ++ c :: cs) = none := by
    simp [after?]
  have hplural : after? "msgid_plural".toList ("msgid".toList ++ c :: cs) = none := by
    -- the longer word goes on with a character that is not blank
    have hne : c ≠ '_' := by
      rintro rfl
      revert hc
      decide
    simp [after?, hne.symm]
  have hid : after? "msgid".toList ("msgid".toList ++ c :: cs) = some (c :: cs) :=
    after?_eq_some_iff.2 rfl
  rw [leadingKeyword?, hcontext, hplural, hid]

/-- What stands apart follows a gap. -/
theorem eq_of_separated? {rest quoted : List Char} (h : separated? rest = some quoted) :
    ∃ gap, rest = gap ++ quoted ∧ gap ≠ [] ∧ ∀ c ∈ gap, isBlank c := by
  cases rest with
  | nil => simp [separated?] at h
  | cons c cs =>
    rw [separated?] at h
    split at h
    · next hc =>
      rw [Option.some_inj] at h
      refine ⟨c :: cs.takeWhile isBlank, ?_, by simp, fun x hx => ?_⟩
      · rw [← h, List.cons_append, List.takeWhile_append_dropWhile]
      · rcases List.mem_cons.1 hx with rfl | hx
        · exact hc
        · exact List.mem_takeWhile_imp hx
    · simp at h

theorem separated?_append {gap : List Char} (hgap : gap ≠ []) (hblank : ∀ c ∈ gap, isBlank c)
    (inner : List Char) : separated? (gap ++ '"' :: inner) = some ('"' :: inner) := by
  obtain ⟨c, cs, rfl⟩ := List.exists_cons_of_ne_nil hgap
  rw [List.cons_append, separated?, if_pos (hblank c List.mem_cons_self),
    List.dropWhile_append_of_pos fun x hx => hblank x (List.mem_cons_of_mem _ hx),
    List.dropWhile_cons_of_neg not_isBlank_quote]

/-- A line that opens an entry, without the blanks at its ends. -/
theorem classify_eq_id_iff {core text : List Char} :
    Line.classify core = .keyword .id text ↔ ∃ gap quoted,
      core = "msgid".toList ++ (gap ++ quoted) ∧ gap ≠ [] ∧ (∀ c ∈ gap, isBlank c) ∧
        Quoted.unquote? quoted = some text := by
  constructor
  · intro h
    rw [Line.classify.eq_def] at h
    split at h
    · simp at h
    · simp at h
    · split at h
      · next k token rest hkeyword =>
        split at h
        · next text' hquoted =>
          obtain ⟨rfl, rfl⟩ : k = .id ∧ text' = text := by simpa using h
          obtain ⟨quoted, hseparated, hunquote⟩ := Option.bind_eq_some_iff.1 hquoted
          obtain ⟨gap, rfl, hgap, hblank⟩ := eq_of_separated? hseparated
          exact ⟨gap, quoted, eq_of_leadingKeyword?_id hkeyword, hgap, hblank, hunquote⟩
        · simp at h
      · split at h <;> simp at h
  · rintro ⟨gap, quoted, rfl, hgap, hblank, hunquote⟩
    obtain ⟨inner, hquoted⟩ := eq_of_unquote? hunquote
    have hkeyword : leadingKeyword? ("msgid".toList ++ (gap ++ quoted)) =
        some (.id, "msgid".toList, gap ++ quoted) := by
      obtain ⟨c, cs, rfl⟩ := List.exists_cons_of_ne_nil hgap
      exact leadingKeyword?_id (hblank c List.mem_cons_self) _
    have hseparated : separated? (gap ++ quoted) = some quoted := by
      rw [hquoted, separated?_append hgap hblank]
    rw [Line.classify.eq_def]
    -- neither empty nor a comment, as it begins with the word
    split
    · next h => simp at h
    · next h => simp at h
    · rw [hkeyword]
      simp [hseparated, hunquote]

/-- **A line that opens an entry.** -/
theorem ofRaw_eq_id_iff {raw text : List Char} :
    Line.ofRaw raw = .keyword .id text ↔ ∃ lead gap quoted post,
      raw = lead ++ ("msgid".toList ++ gap ++ quoted ++ post) ∧ (∀ c ∈ lead, isBlank c) ∧
      gap ≠ [] ∧ (∀ c ∈ gap, isBlank c) ∧ (∀ c ∈ post, isBlank c) ∧
      Quoted.unquote? quoted = some text := by
  rw [Line.ofRaw]
  constructor
  · intro h
    obtain ⟨gap, quoted, hcore, hgap, hblank, hunquote⟩ := classify_eq_id_iff.1 h
    obtain ⟨lead, post, hraw, hlead, hpost⟩ := exists_blanks raw
    refine ⟨lead, gap, quoted, post, ?_, hlead, hgap, hblank, hpost, hunquote⟩
    rw [hcore] at hraw
    simpa using hraw
  · rintro ⟨lead, gap, quoted, post, rfl, hlead, hgap, hblank, hpost, hunquote⟩
    obtain ⟨inner, hquoted⟩ := eq_of_unquote? hunquote
    have htrim : trim (lead ++ ("msgid".toList ++ gap ++ quoted ++ post)) =
        "msgid".toList ++ gap ++ quoted := by
      refine trim_append_append hlead hpost ⟨"sgid".toList ++ gap ++ quoted, rfl⟩ (by decide)
        ⟨"msgid".toList ++ gap ++ '"' :: inner, ?_⟩ not_isBlank_quote
      rw [hquoted]
      simp
    rw [htrim]
    exact classify_eq_id_iff.2 ⟨gap, quoted, by rw [List.append_assoc], hgap, hblank, hunquote⟩

/-- **The quoted string of a line that opens an entry can be exchanged.** -/
theorem exists_quoted_of_id {raw text : List Char} (h : Line.ofRaw raw = .keyword .id text) :
    ∃ pre quoted post, raw = pre ++ (quoted ++ post) ∧
      (∀ line, quoteRange line raw =
        ⟨⟨line, units16 pre⟩, ⟨line, units16 (pre ++ quoted)⟩⟩) ∧
      (∀ c ∈ post, isBlank c) ∧
      ∀ new post', (∀ c ∈ post', isBlank c) →
        Line.ofRaw (pre ++ (Quoted.quote new ++ post')) = .keyword .id new := by
  obtain ⟨lead, gap, quoted, post, rfl, hlead, hgap, hblank, hpost, hunquote⟩ := ofRaw_eq_id_iff.1 h
  obtain ⟨inner, rfl⟩ := eq_of_unquote? hunquote
  have hraw : lead ++ ("msgid".toList ++ gap ++ '"' :: (inner ++ ['"']) ++ post) =
      (lead ++ "msgid".toList ++ gap) ++ ('"' :: (inner ++ ['"']) ++ post) := by
    simp only [List.append_assoc]
  have hquote : '"' ∉ lead ++ "msgid".toList ++ gap := by
    simp [quote_not_mem_of_blanks hlead, quote_not_mem_of_blanks hblank]
  refine ⟨lead ++ "msgid".toList ++ gap, _, post, hraw, fun line => ?_, hpost,
    fun new post' hpost' => ?_⟩
  · rw [hraw, quoteRange_eq hquote (quote_not_mem_of_blanks hpost)]
  · refine ofRaw_eq_id_iff.2 ⟨lead, gap, Quoted.quote new, post', ?_, hlead, hgap, hblank, hpost',
      Quoted.unquote?_quote new⟩
    simp only [List.append_assoc]

/-! ### Lines that continue a string -/

theorem eq_of_continuation {raw quoted text : List Char}
    (h : Line.ofRaw raw = .continuation quoted text) :
    trim raw = quoted ∧ Quoted.unquote? quoted = some text := by
  rw [Line.ofRaw, Line.classify.eq_def] at h
  split at h
  · simp at h
  · simp at h
  · split at h
    · split at h <;> simp at h
    · split at h
      · next hunquote =>
        obtain ⟨rfl, rfl⟩ : trim raw = quoted ∧ _ = text := by simpa using h
        exact ⟨rfl, hunquote⟩
      · simp at h

/-- **A line that continues a string** is that string between blanks. -/
theorem exists_quoted_of_continuation {raw quoted text : List Char}
    (h : Line.ofRaw raw = .continuation quoted text) : ∃ lead post,
      raw = lead ++ (quoted ++ post) ∧
      (∀ line, quoteRange line raw =
        ⟨⟨line, units16 lead⟩, ⟨line, units16 (lead ++ quoted)⟩⟩) ∧
      ∀ c ∈ post, isBlank c := by
  obtain ⟨lead, post, hraw, hlead, hpost⟩ := exists_blanks raw
  obtain ⟨htrim, hunquote⟩ := eq_of_continuation h
  obtain ⟨inner, rfl⟩ := eq_of_unquote? hunquote
  rw [htrim] at hraw
  subst hraw
  exact ⟨lead, post, rfl, fun line => quoteRange_eq (quote_not_mem_of_blanks hlead)
    (quote_not_mem_of_blanks hpost), hpost⟩

/-! ### Lines with a keyword and no quoted string -/

theorem eq_of_pluralIndex? {cs digits rest : List Char}
    (h : pluralIndex? cs = some (digits, rest)) : cs = '[' :: (digits ++ ']' :: rest) := by
  rw [pluralIndex?.eq_def] at h
  split at h
  · next cs =>
    dsimp only at h
    split at h
    · next d ds rest' hdigits hrest =>
      obtain ⟨rfl, rfl⟩ : cs.takeWhile isDecimalDigit = digits ∧ rest' = rest := by simpa using h
      rw [← hrest, List.takeWhile_append_dropWhile]
    · simp at h
  · simp at h

/-- A text begins with the keyword that is found there. -/
theorem eq_of_leadingKeyword? {cs token rest : List Char} {k : Keyword}
    (h : leadingKeyword? cs = some (k, token, rest)) : cs = token ++ rest := by
  have hword : ∀ {word rest' : List Char} {k' : Keyword}, after? word cs = some rest' →
      some (k', word, rest') = some (k, token, rest) → cs = token ++ rest := by
    intro word rest' k' hafter heq
    obtain ⟨-, rfl, rfl⟩ : k' = k ∧ word = token ∧ rest' = rest := by simpa using heq
    exact after?_eq_some_iff.1 hafter
  rw [leadingKeyword?] at h
  split at h
  · next hafter => exact hword hafter h
  · split at h
    · next hafter => exact hword hafter h
    · split at h
      · next hafter => exact hword hafter h
      · split at h
        · simp at h
        · next rest' hafter =>
          split at h
          · exact hword hafter h
          · next digits rest'' hindex =>
            obtain ⟨-, rfl, rfl⟩ : _ = k ∧ "msgstr[".toList ++ digits ++ [']'] = token ∧
              rest'' = rest := by simpa using h
            rw [after?_eq_some_iff.1 hafter, eq_of_pluralIndex? hindex]
            simp

/-- **A malformed line** begins, after blanks, with the word that is reported. -/
theorem exists_of_malformed {raw token : List Char} (h : Line.ofRaw raw = .malformed token) :
    ∃ rest, raw = raw.takeWhile isBlank ++ (token ++ rest) := by
  have hcore : ∃ rest, trim raw = token ++ rest := by
    rw [Line.ofRaw, Line.classify.eq_def] at h
    split at h
    · simp at h
    · simp at h
    · split at h
      · next k token' rest hkeyword =>
        split at h
        · simp at h
        · obtain rfl : token' = token := by simpa using h
          exact ⟨rest, eq_of_leadingKeyword? hkeyword⟩
      · split at h <;> simp at h
  obtain ⟨rest, hcore⟩ := hcore
  obtain ⟨post, hpost, -⟩ := exists_trim_append raw
  refine ⟨rest ++ post, ?_⟩
  rw [← List.append_assoc token, ← hcore, hpost, trimStart, List.takeWhile_append_dropWhile]

/-! ### Lines as they are written

A keyword, one space and a quoted string, or a quoted string alone: what is read from such a line is
the text that was quoted.
-/

theorem ofRaw_id (s : List Char) :
    Line.ofRaw ("msgid".toList ++ ' ' :: Quoted.quote s) = .keyword .id s :=
  ofRaw_eq_id_iff.2 ⟨[], [' '], Quoted.quote s, [], by simp, by simp, by simp,
    List.forall_mem_singleton.2 (by decide), by simp, Quoted.unquote?_quote s⟩

theorem ofRaw_value (s : List Char) :
    Line.ofRaw ("msgstr".toList ++ ' ' :: Quoted.quote s) = .keyword (.value true) s := by
  have htrim : trim ("msgstr".toList ++ ' ' :: Quoted.quote s) =
      "msgstr".toList ++ ' ' :: Quoted.quote s :=
    trim_of_ends ⟨_, rfl⟩ (by decide) ⟨"msgstr".toList ++ ' ' :: '"' :: Quoted.escape s, rfl⟩
      not_isBlank_quote
  have hkeyword : leadingKeyword? ("msgstr".toList ++ ' ' :: Quoted.quote s) =
      some (.value true, "msgstr".toList, ' ' :: Quoted.quote s) := by
    simp [leadingKeyword?, after?, pluralIndex?]
  have hseparated : separated? (' ' :: Quoted.quote s) = some (Quoted.quote s) :=
    @separated?_append [' '] (by simp) (List.forall_mem_singleton.2 (by decide)) _
  rw [Line.ofRaw, htrim, Line.classify.eq_def]
  split
  · next h => simp at h
  · next h => simp at h
  · rw [hkeyword]
    simp [hseparated, Quoted.unquote?_quote]

theorem ofRaw_quote (s : List Char) :
    Line.ofRaw (Quoted.quote s) = .continuation (Quoted.quote s) s := by
  have htrim : trim (Quoted.quote s) = Quoted.quote s :=
    trim_of_ends ⟨_, rfl⟩ not_isBlank_quote ⟨'"' :: Quoted.escape s, rfl⟩ not_isBlank_quote
  have hkeyword : leadingKeyword? (Quoted.quote s) = none := by
    simp [leadingKeyword?, after?, Quoted.quote]
  rw [Line.ofRaw, htrim, Line.classify.eq_def]
  split
  · next h => simp [Quoted.quote] at h
  · next h => simp [Quoted.quote] at h
  · rw [hkeyword, Quoted.unquote?_quote]

end Catalog

end Concord
