import Concord.Catalog.Basic
import Concord.Catalog.Line
import Concord.Path
import Concord.Text.LineIndex

/-!
# Reading a catalog

One pass over the lines. A `msgid` opens an entry; the entry is closed by a blank line, by the next
`msgid` or `msgctxt` and at the end. Closing decides what the entry comes to: it is stored, or it is
the header (empty key), or its value is missing or blank, which is reported. A key that occurs again
replaces the earlier one and is reported without making the reading a failure.

* `parse` – a catalog from the name and the text of a file;
* `Reader.step` – the effect of one line, `Reader.close` – the end of an entry;
* `headerLanguage?` – the language that a header declares.
-/

namespace Concord.Catalog

/-- An entry that is still open: its key and, once a `msgstr` was seen, its value, each with the
range it was read from. -/
structure OpenEntry where
  key : List Char
  keyRange : Range
  value : Option (List Char × Range)
deriving DecidableEq, Repr

/-- Which string a continuation line goes on with. -/
inductive Focus where
  | nothing
  | key
  | value
  | ignored
deriving DecidableEq, Repr

/-- What is known after some lines. -/
structure Reader where
  language : String
  entries : LanguageEntries
  diagnostics : List Diagnostic
  success : Bool
  focus : Focus
  current : Option OpenEntry

/-! ### The language of a header -/

/-- What follows a word at the beginning of a text, whatever the case of its letters. -/
def afterIgnoringCase? : List Char → List Char → Option (List Char)
  | [], cs => some cs
  | w :: ws, c :: cs => if w.toLower = c.toLower then afterIgnoringCase? ws cs else none
  | _ :: _, [] => none

/-- Whether a character is a space or a tab. -/
def isSpaceOrTab (c : Char) : Bool := c = ' ' || c = '\t'

/-- The language that one line of a header declares: `Language:` and a tag up to the end of the
line or a carriage return. -/
def languageField? (line : List Char) : Option (List Char) :=
  match afterIgnoringCase? "Language:".toList (line.dropWhile isSpaceOrTab) with
  | none => none
  | some rest =>
    match rest.dropWhile isSpaceOrTab with
    | [] => none
    | c :: cs =>
      if Text.isBlank c then none
      else some (Text.trim ((c :: cs).takeWhile (· ≠ '\r')))

/-- The language of the first line that declares one. -/
def headerLanguage? (header : List Char) : Option (List Char) :=
  (Text.lines header).findSome? languageField?

/-- The language that a file name stands for: `locales/ja.po` is Japanese. -/
def defaultLanguage (file : String) : String := (Path.stem? file).getD ""

/-! ### Where the strings of a line are -/

/-- The columns from the first quote of a line to just after its last one. -/
def quoteRange (line : Nat) (raw : List Char) : Range :=
  let before := raw.takeWhile (· ≠ '"')
  let upToLast := (raw.reverse.dropWhile (· ≠ '"')).reverse
  .between ⟨line, Text.units16 before⟩ ⟨line, Text.units16 upToLast⟩

/-- The columns of a keyword, which stands after the blanks at the beginning of a line. -/
def tokenRange (line : Nat) (raw token : List Char) : Range :=
  let column := Text.units16 (raw.takeWhile Text.isBlank)
  .between ⟨line, column⟩ ⟨line, column + Text.units16 token⟩

namespace Reader

/-- Before the first line. -/
def start (file : String) : Reader :=
  ⟨defaultLanguage file, .empty, [], true, .nothing, none⟩

/-- Report a finding. -/
def report (r : Reader) (d : Diagnostic) : Reader :=
  { r with diagnostics := r.diagnostics ++ [d] }

/-- Report a finding that makes the reading a failure. -/
def fail (r : Reader) (range : Range) (message : String) (severity : Severity) (rule : Rule) :
    Reader :=
  { r.report ⟨range, message, severity, rule⟩ with success := false }

/-- Store an entry, reporting a key that was there already. -/
def store (r : Reader) (file key : String) (keyRange : Range) (value : List Char) : Reader :=
  let r := if r.entries.contains key then
    r.report ⟨keyRange, s!"duplicate msgid '{key}'", .warning, .duplicateKey⟩ else r
  { r with entries := r.entries.insert key ⟨String.ofList value, ⟨file, keyRange⟩⟩ }

/-- What a closed entry comes to. -/
def finish (r : Reader) (file : String) (e : OpenEntry) : Reader :=
  match e.key, e.value with
  | [], value =>
    match headerLanguage? ((value.map Prod.fst).getD []) with
    | some language => { r with language := String.ofList language }
    | none => r
  | c :: cs, none =>
    let key := String.ofList (c :: cs)
    r.fail e.keyRange s!"missing msgstr for msgid '{key}'" .error .missingValue
  | c :: cs, some (text, range) =>
    let key := String.ofList (c :: cs)
    if Text.trim text = [] then
      r.fail range s!"empty msgstr for msgid '{key}'" .warning .emptyValue
    else r.store file key e.keyRange text

/-- Close the open entry, if there is one. -/
def close (r : Reader) (file : String) : Reader :=
  let idle := { r with focus := .nothing, current := none }
  match r.current with
  | none => idle
  | some e => idle.finish file e

/-- The effect of a keyword with its text. -/
def keyword (r : Reader) (file : String) (range : Range) (k : Keyword) (text : List Char) :
    Reader :=
  match k with
  | .id => { r.close file with focus := .key, current := some ⟨text, range, none⟩ }
  | .context => { r.close file with focus := .ignored }
  | .plural => { r with focus := .ignored }
  | .value main =>
    match r.current with
    | some e =>
      if main then
        { r with focus := .value, current := some { e with value := some (text, range) } }
      else { r with focus := .ignored }
    | none =>
      { r.fail range "msgstr without a preceding msgid" .warning .unrecognizedLine with
        focus := .ignored }

/-- The effect of a quoted string on a line of its own. -/
def continuation (r : Reader) (range : Range) (quoted text : List Char) : Reader :=
  let unexpected := r.fail range
    s!"unexpected continuation string outside of msgid/msgstr: {String.ofList quoted}"
    .warning .unexpectedContinuation
  match r.focus, r.current with
  | .ignored, _ => r
  | .key, some e =>
    { r with current := some { e with
        key := e.key ++ text
        keyRange := .between e.keyRange.start range.stop } }
  | .value, some e =>
    let old := e.value.getD ([], range)
    { r with current := some { e with
        value := some (old.1 ++ text, .between old.2.start range.stop) } }
  | _, _ => unexpected

/-- The effect of one line. -/
def step (file : String) (r : Reader) (line : Nat) (raw : List Char) : Reader :=
  match Line.ofRaw raw with
  | .blank => r.close file
  | .comment => r
  | .keyword k text => r.keyword file (quoteRange line raw) k text
  | .continuation quoted text => r.continuation (quoteRange line raw) quoted text
  | .malformed token =>
    r.fail (tokenRange line raw token)
      s!"invalid {String.ofList token} format, expected quoted string" .error .invalidToken
  | .unrecognized content =>
    r.fail ⟨⟨line, 0⟩, ⟨line, 0⟩⟩
      s!"unrecognized line in catalog: {String.ofList content}" .warning .unrecognizedLine

/-- The effect of a list of lines, the first of which has number `line`. -/
def run (file : String) (r : Reader) (line : Nat) : List (List Char) → Reader
  | [] => r
  | raw :: rest => run file (r.step file line raw) (line + 1) rest

/-- What was read, once every entry is closed. -/
def result (r : Reader) : Catalog :=
  ⟨Dict.empty.insert r.language r.entries, r.diagnostics, r.success⟩

end Reader

/-- Read a catalog. -/
def parse (file text : String) : Catalog :=
  (((Reader.start file).run file 0 (Text.lines text.toList)).close file).result

end Concord.Catalog
