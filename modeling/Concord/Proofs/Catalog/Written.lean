import Concord.Proofs.Catalog.Drafts
import Concord.Proofs.Catalog.QuotedLine
import Concord.Proofs.Dictionaries

/-!
# Catalogs as they are written

A catalog is written as blocks with an empty line between two: perhaps a header that declares the
language, then one block for each entry. A block is a `msgid` and a `msgstr`, and either text may be
cut into pieces, which go on consecutive lines, each between quotes of its own. Reading such a text
gives back what was written (`parse_write`), whatever the characters of the pieces: the quotes hide
them from the look at the beginning and at the ends of a line.

The proof goes from the inside to the outside.

* The lines of the pieces of one text bring about nothing but that text and its range
  (`Cursor.readAll_rest`), where a key and a value differ only in where the text is kept.
* The lines of a block open an entry, and what follows the block closes it, so that the events of a
  document are its blocks, closed in order (`events_write`).
* A header sets the language, and an entry is stored under its key (`Reader.absorbAll_entries`).
-/

namespace Concord.Catalog

open Text

/-! ### Documents -/

/-- A text in pieces, of which there is one at least. -/
structure Pieces where
  first : List Char
  rest : List (List Char)
deriving DecidableEq, Repr

namespace Pieces

/-- The text that the pieces make up. -/
def text (p : Pieces) : List Char := p.first ++ p.rest.flatten

/-- The lines of a text: a word and the first piece, then each other piece on a line of its own. -/
def lines (word : List Char) (p : Pieces) : List (List Char) :=
  (word ++ ' ' :: Quoted.quote p.first) :: p.rest.map Quoted.quote

/-- The place just after the last of some pieces that are written below a line, and without any the
place after what that line holds. -/
def stopBelow (line : Nat) (stop : Position) (rest : List (List Char)) : Position :=
  match rest.getLast? with
  | none => stop
  | some piece => ⟨line + rest.length, units16 (Quoted.quote piece)⟩

/-- The range of a text whose word stands on the given line: from the first opening quote to just
after the last closing one. -/
def range (word : List Char) (p : Pieces) (line : Nat) : Range :=
  ⟨⟨line, units16 word + 1⟩,
    stopBelow line ⟨line, units16 word + 1 + units16 (Quoted.quote p.first)⟩ p.rest⟩

end Pieces

/-- A key and a value, in pieces. -/
structure Block where
  key : Pieces
  value : Pieces
deriving DecidableEq, Repr

/-- The lines of a block. -/
def Block.lines (b : Block) : List (List Char) :=
  b.key.lines "msgid".toList ++ b.value.lines "msgstr".toList

/-- A declaration of a language. -/
structure Header where
  language : List Char
  language_ne_nil : language ≠ []
  trim_language : trim language = language
  return_not_mem : '\r' ∉ language
  newline_not_mem : '\n' ∉ language
deriving DecidableEq, Repr

/-- What the value of a header says. -/
def Header.text (h : Header) : List Char := "Language: ".toList ++ h.language ++ ['\n']

/-- A header has the empty key, and its value is one line. -/
def Header.block (h : Header) : Block := ⟨⟨[], []⟩, ⟨h.text, []⟩⟩

/-- A block that is neither a header nor without a value. -/
structure Entry extends Block where
  key_ne_nil : key.text ≠ []
  trim_value_ne_nil : trim value.text ≠ []
deriving DecidableEq, Repr

/-- What is written to a catalog file. -/
structure Document where
  header : Option Header
  entries : List Entry
deriving DecidableEq, Repr

/-- Some entries by their keys, each where it is when the first one begins on the given line. -/
def placedFrom (file : String) (line : Nat) : List Entry → List (String × CatalogEntry)
  | [] => []
  | e :: rest =>
    (String.ofList e.key.text,
      ⟨String.ofList e.value.text, ⟨file, e.key.range "msgid".toList line⟩⟩) ::
        placedFrom file (line + e.lines.length + 1) rest

/-- A warning for each entry whose key is among those seen before it. -/
def repeatsAfter (seen : List String) : List (String × CatalogEntry) → List Diagnostic
  | [] => []
  | (key, entry) :: rest =>
    (if key ∈ seen then
      [⟨entry.location.range, s!"duplicate msgid '{key}'", .warning, .duplicateKey⟩] else []) ++
        repeatsAfter (key :: seen) rest

namespace Document

variable (d : Document)

/-- The blocks, that of the header first. -/
def blocks : List Block := (d.header.map Header.block).toList ++ d.entries.map Entry.toBlock

/-- A document as text, with some number of empty lines at the end. -/
def write (ending : Nat) : String :=
  String.ofList (['\n'].intercalate
    ([[]].intercalate (d.blocks.map Block.lines) ++ List.replicate ending []))

/-- The language: the declared one, and without a header that of the file. -/
def language (file : String) : String :=
  (d.header.map fun h => String.ofList h.language).getD (defaultLanguage file)

/-- The line of the first entry. -/
def firstLine : Nat := (d.header.map fun h => h.block.lines.length + 1).getD 0

/-- The entries by their keys, each where it is. -/
def placed (file : String) : List (String × CatalogEntry) :=
  placedFrom file d.firstLine d.entries

end Document

/-! ### The lines of a text -/

namespace Pieces

theorem stopBelow_cons (line : Nat) (stop : Position) (piece : List Char)
    (rest : List (List Char)) : stopBelow line stop (piece :: rest) =
      stopBelow (line + 1) ⟨line + 1, units16 (Quoted.quote piece)⟩ rest := by
  cases rest with
  | nil => rfl
  | cons piece' rest =>
    simp only [stopBelow, List.getLast?_cons_cons, List.length_cons]
    rw [List.getLast?_eq_some_getLast (List.cons_ne_nil piece' rest)]
    simp only [Position.mk.injEq, and_true]
    omega

end Pieces

theorem quoteRange_quote (line : Nat) (s : List Char) :
    quoteRange line (Quoted.quote s) = ⟨⟨line, 0⟩, ⟨line, units16 (Quoted.quote s)⟩⟩ := by
  have h := @quoteRange_eq line [] [] (Quoted.escape s) (by simp) (by simp)
  rwa [List.nil_append, List.append_nil] at h

theorem quoteRange_word (line : Nat) {word : List Char} (hword : '"' ∉ word) (s : List Char) :
    quoteRange line (word ++ ' ' :: Quoted.quote s) =
      ⟨⟨line, units16 word + 1⟩, ⟨line, units16 word + 1 + units16 (Quoted.quote s)⟩⟩ := by
  have h := @quoteRange_eq line (word ++ [' ']) [] (Quoted.escape s) (by simpa using hword)
    (by simp)
  have hspace : units16 (word ++ [' ']) = units16 word + 1 := units16_append word [' ']
  rw [List.append_nil, units16_append (word ++ [' ']), hspace, List.append_assoc,
    List.singleton_append] at h
  exact h

namespace Cursor

/-- **The pieces below the first one go on with the text**, if the cursor keeps a text and its range
and lets a quoted string go on with them. -/
theorem readAll_rest (keep : List Char → Range → Cursor)
    (hkeep : ∀ text range range' quoted piece,
      (keep text range).continuation range' quoted piece =
        ([], keep (text ++ piece) (.between range.start range'.stop)))
    (line : Nat) (rest : List (List Char)) (text : List Char) (range : Range)
    (hrange : range.start.line ≤ line) :
    (keep text range).readAll (line + 1) (rest.map Quoted.quote) =
      ([], keep (text ++ rest.flatten) ⟨range.start, Pieces.stopBelow line range.stop rest⟩) := by
  induction rest generalizing line text range with
  | nil => simp [Pieces.stopBelow]
  | cons piece rest ih =>
    have hbetween : Range.between range.start ⟨line + 1, units16 (Quoted.quote piece)⟩ =
        ⟨range.start, ⟨line + 1, units16 (Quoted.quote piece)⟩⟩ :=
      Range.between_of_line_lt (Nat.lt_succ_of_le hrange)
    have hread : (keep text range).read (line + 1) (Quoted.quote piece) =
        ([], keep (text ++ piece) ⟨range.start, ⟨line + 1, units16 (Quoted.quote piece)⟩⟩) := by
      rw [read, ofRaw_quote]
      dsimp only
      rw [hkeep, quoteRange_quote, hbetween]
    have hrest := ih (line + 1) (text ++ piece)
      ⟨range.start, ⟨line + 1, units16 (Quoted.quote piece)⟩⟩ (Nat.le_succ_of_le hrange)
    rw [List.map_cons, readAll, hread]
    dsimp only
    rw [hrest, Pieces.stopBelow_cons, List.flatten_cons, List.append_assoc, List.nil_append]

end Cursor

/-! ### The lines of a block -/

/-- What a block that begins on the given line comes to. -/
def Block.opened (b : Block) (line : Nat) : OpenEntry :=
  ⟨b.key.text, b.key.range "msgid".toList line,
    some (b.value.text,
      b.value.range "msgstr".toList (line + (b.key.lines "msgid".toList).length))⟩

namespace Cursor

/-- The lines of a key close what was open and open an entry. -/
theorem readAll_key (c : Cursor) (line : Nat) (p : Pieces) :
    c.readAll line (p.lines "msgid".toList) =
      (c.closing, ⟨.key, some ⟨p.text, p.range "msgid".toList line, none⟩⟩) := by
  have hread : c.read line ("msgid".toList ++ ' ' :: Quoted.quote p.first) =
      (c.closing, ⟨.key, some ⟨p.first, ⟨⟨line, units16 "msgid".toList + 1⟩,
        ⟨line, units16 "msgid".toList + 1 + units16 (Quoted.quote p.first)⟩⟩, none⟩⟩) := by
    rw [read, ofRaw_id, quoteRange_word line (by decide)]
    rfl
  rw [Pieces.lines, readAll, hread,
    readAll_rest (fun text range => ⟨.key, some ⟨text, range, none⟩⟩) (fun _ _ _ _ _ => rfl)
      line p.rest p.first _ (Nat.le_refl line), List.append_nil]
  rfl

/-- The lines of a value complete the open entry. -/
theorem readAll_value (e : OpenEntry) (line : Nat) (p : Pieces) :
    (⟨.key, some e⟩ : Cursor).readAll line (p.lines "msgstr".toList) =
      ([], ⟨.value, some { e with value := some (p.text, p.range "msgstr".toList line) }⟩) := by
  have hread : (⟨.key, some e⟩ : Cursor).read line ("msgstr".toList ++ ' ' :: Quoted.quote p.first)
      = ([], ⟨.value, some { e with value := some (p.first, ⟨⟨line, units16 "msgstr".toList + 1⟩,
        ⟨line, units16 "msgstr".toList + 1 + units16 (Quoted.quote p.first)⟩⟩) }⟩) := by
    rw [read, ofRaw_value, quoteRange_word line (by decide)]
    rfl
  rw [Pieces.lines, readAll, hread,
    readAll_rest (fun text range => ⟨.value, some { e with value := some (text, range) }⟩)
      (fun _ _ _ _ _ => rfl) line p.rest p.first _ (Nat.le_refl line), List.append_nil]
  rfl

/-- **The lines of a block close what was open and leave its entry open.** -/
theorem readAll_block (c : Cursor) (line : Nat) (b : Block) :
    c.readAll line b.lines = (c.closing, ⟨.value, some (b.opened line)⟩) := by
  rw [Block.lines, readAll_append, readAll_key, readAll_value, List.append_nil]
  rfl

/-- Empty lines at the end close what is open, as the end itself does. -/
theorem eventsFrom_replicate (c : Cursor) (line ending : Nat) :
    c.eventsFrom line (List.replicate ending []) = c.closing := by
  induction ending generalizing c line with
  | zero => rfl
  | succ n ih =>
    rw [List.replicate_succ, eventsFrom_blank, ih]
    exact List.append_nil _

end Cursor

/-! ### The events of a document -/

/-- What some blocks come to when the first one begins on the given line. -/
def openedFrom (line : Nat) : List Block → List OpenEntry
  | [] => []
  | b :: rest => b.opened line :: openedFrom (line + b.lines.length + 1) rest

theorem eventsFrom_blocks (line ending : Nat) (bs : List Block) :
    Cursor.idle.eventsFrom line
      ([[]].intercalate (bs.map Block.lines) ++ List.replicate ending []) =
        (openedFrom line bs).map .closed := by
  induction bs generalizing line with
  | nil => exact Cursor.eventsFrom_replicate _ line ending
  | cons b bs ih =>
    cases bs with
    | nil =>
      rw [List.map_singleton, List.intercalate_singleton, Cursor.eventsFrom_append,
        Cursor.readAll_block, Cursor.eventsFrom_replicate]
      rfl
    | cons b' bs =>
      rw [List.map_cons, List.map_cons, List.intercalate_cons_cons, ← List.map_cons,
        List.append_assoc, List.append_assoc, Cursor.eventsFrom_append, Cursor.readAll_block,
        List.singleton_append, Cursor.eventsFrom_blank, ih]
      rfl

theorem newline_not_mem_blockLines {b : Block} {l : List Char} (h : l ∈ b.lines) : '\n' ∉ l := by
  have hpieces : ∀ {word : List Char} {p : Pieces}, '\n' ∉ word → l ∈ p.lines word → '\n' ∉ l := by
    intro word p hword hl
    rcases List.mem_cons.1 hl with rfl | hl
    · simpa [hword] using newline_not_mem_quote p.first
    · obtain ⟨piece, -, rfl⟩ := List.mem_map.1 hl
      exact newline_not_mem_quote piece
  rcases List.mem_append.1 h with h | h
  · exact hpieces (by decide) h
  · exact hpieces (by decide) h

theorem newline_not_mem_intercalate {bs : List Block} {l : List Char}
    (h : l ∈ [[]].intercalate (bs.map Block.lines)) : '\n' ∉ l := by
  induction bs with
  | nil => simp at h
  | cons b bs ih =>
    cases bs with
    | nil =>
      rw [List.map_singleton, List.intercalate_singleton] at h
      exact newline_not_mem_blockLines h
    | cons b' bs =>
      rw [List.map_cons, List.map_cons, List.intercalate_cons_cons, ← List.map_cons] at h
      rcases List.mem_append.1 h with h | h
      · rcases List.mem_append.1 h with h | h
        · exact newline_not_mem_blockLines h
        · rw [List.mem_singleton.1 h]
          exact List.not_mem_nil
      · exact ih h

/-- **The events of a document are its blocks, closed in order.** -/
theorem events_write (d : Document) (ending : Nat) :
    events (d.write ending) = (openedFrom 0 d.blocks).map .closed := by
  rw [← eventsFrom_blocks 0 ending, events, Document.write, String.toList_ofList]
  generalize hls : [[]].intercalate (d.blocks.map Block.lines) ++ List.replicate ending [] = ls
  have hnewline : ∀ l ∈ ls, '\n' ∉ l := by
    intro l hl
    rw [← hls, List.mem_append, List.mem_replicate] at hl
    rcases hl with hl | ⟨-, rfl⟩
    · exact newline_not_mem_intercalate hl
    · exact List.not_mem_nil
  cases ls with
  -- without any line the text is empty, and it has one line, which is empty
  | nil => rfl
  | cons l ls =>
    have hcons : ['\n'].intercalate (l :: ls) = l ++ below ls := intercalate_newline [] l ls
    rw [hcons, lines_append_below (hnewline l List.mem_cons_self) fun x hx =>
      hnewline x (List.mem_cons_of_mem _ hx)]

/-! ### What a document says -/

theorem not_isBlank_of_trim_eq {c : Char} {cs : List Char} (h : trim (c :: cs) = c :: cs) :
    ¬ isBlank c := by
  intro hc
  have hlength : (trim (c :: cs)).length ≤ cs.length := by
    rw [trim, trimStart, List.dropWhile_cons_of_pos hc, trimEnd, List.length_reverse]
    refine (List.dropWhile_sublist _).length_le.trans ?_
    rw [List.length_reverse]
    exact (List.dropWhile_sublist _).length_le
  rw [h, List.length_cons] at hlength
  omega

theorem afterIgnoringCase?_append (word cs : List Char) :
    afterIgnoringCase? word (word ++ cs) = some cs := by
  induction word with
  | nil => simp [afterIgnoringCase?]
  | cons w ws ih => simpa [afterIgnoringCase?] using ih

theorem languageField?_language {c : Char} {cs : List Char} (htrim : trim (c :: cs) = c :: cs)
    (hreturn : '\r' ∉ c :: cs) :
    languageField? ("Language: ".toList ++ c :: cs) = some (c :: cs) := by
  have hblank := not_isBlank_of_trim_eq htrim
  have hspace : isSpaceOrTab c = false := by
    -- both are blanks, and the language does not begin with one
    rw [isSpaceOrTab, Bool.or_eq_false_iff, decide_eq_false_iff_not, decide_eq_false_iff_not]
    constructor <;> rintro rfl <;> exact hblank (by decide)
  have hword : ("Language: ".toList ++ c :: cs).dropWhile isSpaceOrTab =
      "Language:".toList ++ ' ' :: c :: cs := by
    simp [isSpaceOrTab]
  have hdrop : (' ' :: c :: cs).dropWhile isSpaceOrTab = c :: cs := by
    rw [List.dropWhile_cons_of_pos (by decide), List.dropWhile_cons_of_neg (by simp [hspace])]
  have hall : (c :: cs).takeWhile (· ≠ '\r') = c :: cs :=
    List.takeWhile_eq_self_iff.2 fun x hx =>
      decide_eq_true fun he : x = '\r' => hreturn (he ▸ hx)
  rw [languageField?, hword, afterIgnoringCase?_append]
  dsimp only
  rw [hdrop]
  dsimp only
  rw [if_neg hblank, hall, htrim]

/-- **A header declares its language.** -/
theorem headerLanguage?_text (h : Header) : headerLanguage? h.text = some h.language := by
  obtain ⟨language, hne, htrim, hreturn, hnewline⟩ := h
  obtain ⟨c, cs, rfl⟩ := List.exists_cons_of_ne_nil hne
  have hline : '\n' ∉ "Language: ".toList ++ c :: cs := by
    rw [List.mem_append, not_or]
    exact ⟨by decide, hnewline⟩
  have hlines : lines ("Language: ".toList ++ c :: cs ++ ['\n']) =
      ["Language: ".toList ++ c :: cs, []] := lines_append_newline hline []
  change (lines ("Language: ".toList ++ c :: cs ++ ['\n'])).findSome? languageField? = _
  rw [hlines, List.findSome?_cons, languageField?_language htrim hreturn]

namespace Reader

variable (r : Reader) (file : String)

theorem finish_header (h : Header) (line : Nat) :
    r.finish file (h.block.opened line) = { r with language := String.ofList h.language } := by
  have hkey : (h.block.opened line).key = [] := rfl
  have hvalue : (((h.block.opened line).value.map Prod.fst).getD []) = h.text := by
    simp [Block.opened, Header.block, Pieces.text]
  rw [finish, hkey]
  dsimp only
  rw [hvalue, headerLanguage?_text]

theorem finish_entry (e : Entry) (line : Nat) :
    r.finish file (e.opened line) = r.store file (String.ofList e.key.text)
      (e.key.range "msgid".toList line) e.value.text := by
  obtain ⟨c, cs, hkey⟩ := List.exists_cons_of_ne_nil e.key_ne_nil
  rw [finish, Block.opened, hkey]
  dsimp only
  rw [if_neg e.trim_value_ne_nil]

/-- **Entries are stored in order**, and one whose key is there already is reported. -/
theorem absorbAll_entries (es : List Entry) (line : Nat) {seen : List String}
    (hseen : ∀ key, r.entries.contains key ↔ key ∈ seen) :
    r.absorbAll file ((openedFrom line (es.map Entry.toBlock)).map .closed) =
      { r with
        entries := (placedFrom file line es).foldl (fun d e => d.insert e.1 e.2) r.entries
        diagnostics := r.diagnostics ++ repeatsAfter seen (placedFrom file line es) } := by
  induction es generalizing r line seen with
  | nil => simp [openedFrom, placedFrom, repeatsAfter]
  | cons e es ih =>
    have hstore : ∀ key, (r.store file (String.ofList e.key.text)
        (e.key.range "msgid".toList line) e.value.text).entries.contains key ↔
          key ∈ String.ofList e.key.text :: seen := by
      intro key
      rw [entries_store, Dict.contains, Dict.get?_insert, List.mem_cons, ← hseen, Dict.contains]
      split <;> simp_all
    rw [List.map_cons, openedFrom, List.map_cons, absorbAll_cons, absorb, finish_entry,
      ih _ _ hstore, placedFrom, List.foldl_cons, repeatsAfter]
    by_cases hmem : String.ofList e.key.text ∈ seen
    · simp [store, report, (hseen _).2 hmem, hmem]
    · simp [store, Bool.eq_false_iff.2 fun hc => hmem ((hseen _).1 hc), hmem]

end Reader

/-- The events of a document set the language and store the entries. -/
theorem absorbAll_write (file : String) (d : Document) (ending : Nat) :
    (Reader.start file).absorbAll file (events (d.write ending)) =
      { Reader.start file with
        language := d.language file
        entries := .ofList (d.placed file)
        diagnostics := repeatsAfter [] (d.placed file) } := by
  have hseen : ∀ (r : Reader), r.entries = .empty → ∀ key, r.entries.contains key ↔ key ∈ [] := by
    intro r hr key
    simp [hr, Dict.contains]
  obtain ⟨header, entries⟩ := d
  rw [events_write]
  cases header with
  | none => exact Reader.absorbAll_entries _ file entries 0 (hseen _ rfl)
  | some h =>
    change ((Reader.start file).finish file (h.block.opened 0)).absorbAll file
      ((openedFrom (0 + h.block.lines.length + 1) (entries.map Entry.toBlock)).map .closed) = _
    rw [Reader.finish_header, Reader.absorbAll_entries _ file entries _ (hseen _ rfl)]
    rfl

/-- **What is written is read back.** Reading a document is a success and gives one language. Its
entries are those of the document, and of several with one key the last; and what is reported is
each entry whose key occurred before. -/
theorem parse_write (file : String) (d : Document) (ending : Nat) :
    ∃ entries, parse file (d.write ending) =
        ⟨Dict.empty.insert (d.language file) entries, repeatsAfter [] (d.placed file), true⟩ ∧
      ∀ key, entries.get? key = (d.placed file).reverse.lookup key := by
  refine ⟨.ofList (d.placed file), ?_, Dict.get?_ofList _⟩
  rw [parse_eq_absorb, absorbAll_write]
  rfl

/-- What a document looks like. -/
example : Document.write
    ⟨some ⟨['e', 'n'], by decide, by decide, by decide, by decide⟩,
      [⟨⟨⟨"a\"".toList, []⟩, ⟨"one".toList, ["two\n".toList]⟩⟩, by decide, by decide⟩]⟩ 1 =
    "msgid \"\"\nmsgstr \"Language: en\\n\"\n\nmsgid \"a\\\"\"\nmsgstr \"one\"\n\"two\\n\"\n" := by
  decide

end Concord.Catalog
