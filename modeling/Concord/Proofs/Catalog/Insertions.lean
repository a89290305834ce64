import Concord.Proofs.Catalog.QuotedLine
import Concord.Proofs.Catalog.Renumbered

/-!
# Comments and carriage returns do not matter

A comment is read in whatever state a catalog is in, and changes nothing but the numbers of the
lines below it. A carriage return at the end of a line is a blank there: it is trimmed before the
line is looked at, and it stands behind every quote that a range is measured to. So a text into
which comments and carriage returns are inserted is read as the same catalog, under the numbers that
its lines have now (`parse_of_insertion`).

The two readings go along side by side. For one line of the text the comments above it are read
first, which leaves the cursor alone (`Cursor.eventsFrom_comments`); then the line itself, with or
without a carriage return (`Cursor.read_append_blanks`), under its new number
(`Cursor.read_renumber`). This is the step of an induction over the lines
(`Insertion.eventsFrom_into`).
-/

namespace Concord.Catalog

open Text

/-! ### Blanks at the end of a line -/

section Blanks

variable {raw post : List Char}

theorem trim_append_blanks (hpost : ∀ c ∈ post, isBlank c) : trim (raw ++ post) = trim raw := by
  by_cases hraw : ∀ c ∈ raw, isBlank c
  · have hboth : ∀ c ∈ raw ++ post, isBlank c := by
      intro c hc
      rcases List.mem_append.1 hc with hc | hc
      · exact hraw c hc
      · exact hpost c hc
    rw [trim, trim, trimStart, trimStart, List.dropWhile_eq_nil_iff.2 hboth,
      List.dropWhile_eq_nil_iff.2 hraw]
  · have hstart : trimStart (raw ++ post) = trimStart raw ++ post := by
      rw [trimStart, trimStart, List.dropWhile_append, if_neg]
      rwa [List.isEmpty_iff, List.dropWhile_eq_nil_iff]
    rw [trim, hstart, trimEnd_append hpost, trim]

theorem ofRaw_append_blanks (hpost : ∀ c ∈ post, isBlank c) :
    Line.ofRaw (raw ++ post) = Line.ofRaw raw := by
  rw [Line.ofRaw, Line.ofRaw, trim_append_blanks hpost]

/-- A text that ends with a quoted string has a quote. -/
theorem quote_mem_of_unquote? {core before quoted text : List Char}
    (h : Quoted.unquote? quoted = some text) (hcore : core = before ++ quoted) : '"' ∈ core := by
  obtain ⟨inner, rfl⟩ := eq_of_unquote? h
  simp [hcore]

theorem mem_of_mem_trim {c : Char} (h : c ∈ trim raw) : c ∈ raw := by
  obtain ⟨lead, post, hraw, -, -⟩ := exists_blanks raw
  rw [hraw]
  exact List.mem_append_right _ (List.mem_append_left _ h)

/-- A line with a keyword and its text has a quote. -/
theorem quote_mem_of_keyword {k : Keyword} {text : List Char}
    (h : Line.ofRaw raw = .keyword k text) : '"' ∈ raw := by
  refine mem_of_mem_trim ?_
  rw [Line.ofRaw, Line.classify.eq_def] at h
  split at h
  · simp at h
  · simp at h
  · split at h
    · next k' token rest hkeyword =>
      split at h
      · next text' hquoted =>
        obtain ⟨quoted, hseparated, hunquote⟩ := Option.bind_eq_some_iff.1 hquoted
        obtain ⟨gap, rfl, -, -⟩ := eq_of_separated? hseparated
        have hcore : trim raw = token ++ gap ++ quoted := by
          rw [eq_of_leadingKeyword? hkeyword, List.append_assoc]
        exact quote_mem_of_unquote? hunquote hcore
      · simp at h
    · split at h <;> simp at h

/-- A line that goes on with a string has a quote. -/
theorem quote_mem_of_continuation {quoted text : List Char}
    (h : Line.ofRaw raw = .continuation quoted text) : '"' ∈ raw := by
  obtain ⟨htrim, hunquote⟩ := eq_of_continuation h
  refine mem_of_mem_trim ?_
  rw [htrim]
  exact quote_mem_of_unquote? hunquote (List.nil_append quoted).symm

/-- What stands behind the last quote of a line is outside its range. -/
theorem quoteRange_append (line : Nat) (hraw : '"' ∈ raw) (hpost : '"' ∉ post) :
    quoteRange line (raw ++ post) = quoteRange line raw := by
  have hbefore : (raw ++ post).takeWhile (· ≠ '"') = raw.takeWhile (· ≠ '"') := by
    obtain ⟨lead, rest, rfl⟩ := List.append_of_mem hraw
    rw [List.append_assoc, List.cons_append, List.takeWhile_append, List.takeWhile_append]
    split <;> simp
  have hupTo : (raw ++ post).reverse.dropWhile (· ≠ '"') = raw.reverse.dropWhile (· ≠ '"') := by
    rw [List.reverse_append, List.dropWhile_append_of_pos]
    intro c hc
    simpa using fun he : c = '"' => hpost (he ▸ List.mem_reverse.1 hc)
  rw [quoteRange, quoteRange, hbefore, hupTo]

/-- What stands behind the word of a malformed line is outside its range. -/
theorem tokenRange_append (line : Nat) {token : List Char}
    (h : Line.ofRaw raw = .malformed token) (post : List Char) :
    tokenRange line (raw ++ post) token = tokenRange line raw token := by
  have hblanks : (raw ++ post).takeWhile isBlank = raw.takeWhile isBlank := by
    rw [List.takeWhile_append, if_neg]
    intro hlength
    -- a line of blanks alone is not malformed
    have hself : raw.takeWhile isBlank = raw := (List.takeWhile_prefix _).eq_of_length hlength
    have hnothing : raw.dropWhile isBlank = [] :=
      List.dropWhile_eq_nil_iff.2 (List.takeWhile_eq_self_iff.1 hself)
    have hblank : Line.ofRaw raw = .blank := by
      rw [Line.ofRaw, trim, trimStart, hnothing]
      rfl
    rw [hblank] at h
    cases h
  rw [tokenRange, tokenRange, hblanks]

/-- **Blanks at the end of a line change nothing.** -/
theorem Cursor.read_append_blanks (hpost : ∀ c ∈ post, isBlank c) (c : Cursor) (line : Nat) :
    c.read line (raw ++ post) = c.read line raw := by
  rw [read, read, ofRaw_append_blanks hpost]
  cases hraw : Line.ofRaw raw with
  | blank => rfl
  | comment => rfl
  | keyword k text =>
    dsimp only
    rw [quoteRange_append line (quote_mem_of_keyword hraw) (quote_not_mem_of_blanks hpost)]
  | continuation quoted text =>
    dsimp only
    rw [quoteRange_append line (quote_mem_of_continuation hraw) (quote_not_mem_of_blanks hpost)]
  | malformed token =>
    dsimp only
    rw [tokenRange_append line hraw post]
  | unrecognized content => rfl

end Blanks

/-! ### Comments between lines -/

/-- Whether a line is a comment: without the blanks around it, it begins with `#`. -/
def IsComment (raw : List Char) : Prop := ∃ rest, trim raw = '#' :: rest

/-- **Comments change nothing but the numbers of the lines below them.** -/
theorem Cursor.eventsFrom_comments {comments : List (List Char)}
    (h : ∀ raw ∈ comments, IsComment raw) (c : Cursor) (line : Nat) (rest : List (List Char)) :
    c.eventsFrom line (comments ++ rest) = c.eventsFrom (line + comments.length) rest := by
  induction comments generalizing line with
  | nil => rfl
  | cons raw comments ih =>
    obtain ⟨text, htext⟩ := h raw List.mem_cons_self
    have hread : c.read line raw = ([], c) := by
      rw [read, Line.ofRaw, htext]
      rfl
    rw [List.cons_append, eventsFrom_cons, hread, List.nil_append,
      ih fun raw hraw => h raw (List.mem_cons_of_mem _ hraw), List.length_cons,
      Nat.add_right_comm, Nat.add_assoc]

/-- Whether a text ends with a line feed does not matter. -/
theorem Cursor.eventsFrom_concat_nil (c : Cursor) (line : Nat) (ls : List (List Char)) :
    c.eventsFrom line (ls ++ [[]]) = c.eventsFrom line ls := by
  rw [eventsFrom_append, eventsFrom_blank, eventsFrom_nil, eventsFrom]
  simp [closing, idle]

/-! ### Insertions -/

/-- What is inserted into a text whose lines are numbered from zero: comments above each line, those
with the number after the last line below all of them, and carriage returns at the ends of some
lines. -/
structure Insertion where
  comments : Nat → List (List Char)
  returns : Nat → Bool
  isComment : ∀ n, ∀ raw ∈ comments n, IsComment raw

namespace Insertion

variable (i : Insertion)

/-- A line, with a carriage return if one is inserted at its end. -/
def ended (n : Nat) (raw : List Char) : List Char := if i.returns n then raw ++ ['\r'] else raw

/-- Lines with what is inserted into them, where the first of them has number `n`. -/
def into (n : Nat) : List (List Char) → List (List Char)
  | [] => i.comments n
  | raw :: rest => i.comments n ++ i.ended n raw :: into (n + 1) rest

/-- Whether a text is another one with what is inserted into it. The line feed behind a comment at
the very end may be left out. -/
def Gives (text text' : String) : Prop :=
  lines text'.toList = i.into 0 (lines text.toList) ∨
    lines (text' ++ "\n").toList = i.into 0 (lines text.toList)

/-- How many lines are inserted above line `n`. -/
def insertedAbove (n : Nat) : Nat := ((List.range (n + 1)).flatMap i.comments).length

/-- The number that line `n` has in the end. -/
def newLine (n : Nat) : Nat := n + i.insertedAbove n

theorem newLine_zero : i.newLine 0 = (i.comments 0).length := by
  simp [newLine, insertedAbove]

theorem newLine_succ (n : Nat) :
    i.newLine (n + 1) = i.newLine n + 1 + (i.comments (n + 1)).length := by
  rw [newLine, insertedAbove, List.range_succ, List.flatMap_append, List.length_append,
    List.flatMap_singleton, newLine, insertedAbove]
  omega

theorem strictMono_newLine : StrictMono i.newLine := by
  refine strictMono_nat_of_lt_succ fun n => ?_
  rw [newLine_succ]
  omega

theorem read_ended (n : Nat) (c : Cursor) (line : Nat) (raw : List Char) :
    c.read line (i.ended n raw) = c.read line raw := by
  rw [ended]
  split
  · exact Cursor.read_append_blanks (List.forall_mem_singleton.2 (by decide)) c line
  · rfl

/-- **Lines with insertions are read like the lines**, under their new numbers. The comments above
the first line begin with number `line`. -/
theorem eventsFrom_into (c : Cursor) (ls : List (List Char)) (n : Nat) {line : Nat}
    (hline : line + (i.comments n).length = i.newLine n) :
    (c.renumber i.newLine).eventsFrom line (i.into n ls) =
      (c.eventsFrom n ls).map (Event.renumber i.newLine) := by
  induction ls generalizing c n line with
  | nil =>
    have hcomments := Cursor.eventsFrom_comments (i.isComment n) (c.renumber i.newLine) line []
    rw [List.append_nil] at hcomments
    rw [into, hcomments]
    exact Cursor.closing_renumber i.newLine c
  | cons raw ls ih =>
    have hnext : i.newLine n + 1 + (i.comments (n + 1)).length = i.newLine (n + 1) :=
      (i.newLine_succ n).symm
    rw [into, Cursor.eventsFrom_comments (i.isComment n), hline, Cursor.eventsFrom_cons,
      read_ended, Cursor.read_renumber i.strictMono_newLine, ih _ _ hnext, Cursor.eventsFrom_cons,
      List.map_append]

/-- The events of a text with insertions are those of the text, under their new numbers. -/
theorem Gives.events_eq {i : Insertion} {text text' : String} (h : i.Gives text text') :
    events text' = (events text).map (Event.renumber i.newLine) := by
  have hevents : Cursor.idle.eventsFrom 0 (lines text'.toList) =
      Cursor.idle.eventsFrom 0 (i.into 0 (lines text.toList)) := by
    rcases h with h | h
    · rw [h]
    · have hend : lines (text' ++ "\n").toList = lines text'.toList ++ [[]] := by
        rw [String.toList_append]
        exact lines_append text'.toList []
      rw [← h, hend, Cursor.eventsFrom_concat_nil]
  have hstart : 0 + (i.comments 0).length = i.newLine 0 := by rw [newLine_zero, Nat.zero_add]
  rw [events, hevents]
  exact i.eventsFrom_into .idle (lines text.toList) 0 hstart

end Insertion

/-- **Comments and carriage returns do not matter.** A text into which comments are inserted between
any two lines, and carriage returns at the ends of lines, is read as the same catalog: the same
language, keys, values and success, and the same findings in the same order. Every range has the
columns that it had, on lines that have moved down by as many lines as are inserted above them. -/
theorem parse_of_insertion (file : String) {i : Insertion} {text text' : String}
    (h : i.Gives text text') : parse file text' = (parse file text).renumber i.newLine :=
  parse_of_events_renumber h.events_eq

/-- A key over two lines, its value, and a line that is not recognized. -/
def plainText : String := "msgid \"a\"\n\"b\"\nmsgstr \"1\"\nfoo"

/-- That text with a comment inside the key, two above the value and one at the very end, and with
carriage returns. -/
def commentedText : String :=
  "msgid \"a\"\r\n  # one\n\"b\"\r\n#\n#, two\r\nmsgstr \"1\"\nfoo\r\n# three"

/-- What is inserted into the one text to get the other. -/
def sampleInsertion : Insertion where
  comments
    | 1 => ["  # one".toList]
    | 2 => ["#".toList, "#, two\r".toList]
    | 4 => ["# three".toList]
    | _ => []
  returns n := n ≠ 2
  isComment n := by
    intro raw hraw
    split at hraw <;> simp only [List.mem_cons, List.not_mem_nil, or_false] at hraw
    · exact ⟨" one".toList, hraw ▸ rfl⟩
    · rcases hraw with rfl | rfl
      · exact ⟨[], rfl⟩
      · exact ⟨", two".toList, rfl⟩
    · exact ⟨" three".toList, hraw ▸ rfl⟩

/-- The statement above speaks of insertions of every kind. -/
theorem parse_of_insertion_sample :
    sampleInsertion.Gives plainText commentedText ∧
    parse "de.po" commentedText =
      (parse "de.po" plainText).renumber sampleInsertion.newLine ∧
    (parse "de.po" commentedText).items =
      [⟨"de", "ab", ⟨"1", ⟨"de.po", ⟨⟨0, 6⟩, ⟨2, 3⟩⟩⟩⟩⟩] ∧
    (parse "de.po" commentedText).diagnostics =
      [⟨⟨⟨6, 0⟩, ⟨6, 0⟩⟩, "unrecognized line in catalog: foo", .warning, .unrecognizedLine⟩] := by
  have hgives : sampleInsertion.Gives plainText commentedText := .inl (by decide +kernel)
  have hparse := parse_of_insertion "de.po" hgives
  have hplain : parse "de.po" plainText =
      ⟨Dict.empty.insert "de" (Dict.empty.insert "ab" ⟨"1", ⟨"de.po", ⟨⟨0, 6⟩, ⟨1, 3⟩⟩⟩⟩),
        [⟨⟨⟨3, 0⟩, ⟨3, 0⟩⟩, "unrecognized line in catalog: foo", .warning, .unrecognizedLine⟩],
        false⟩ := by
    decide +kernel
  refine ⟨hgives, hparse, ?_, ?_⟩
  · rw [hparse, hplain]
    decide +kernel
  · rw [hparse, hplain]
    decide +kernel

end Concord.Catalog
