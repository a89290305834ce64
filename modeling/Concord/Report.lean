import Concord.Config.Discovery
import Concord.Text.Columns

/-!
# Reports

What is told about findings and renames, as text for a screen. A finding is shown with the line of
the file that it is about, if the file has that line, and the part of the line that it is about is
marked below it.

* `Report.listing` – all findings and how many there are;
* `Report.renamed` – the edits of a rename;
* `Report.consistent`, `Report.created` – what is told when there is nothing to tell, and when a
  configuration was written.
-/

namespace Concord.Report

/-! ### Colours -/

/-- How a text is shown. -/
structure Ink where
  codes : List String
deriving DecidableEq, Repr

namespace Ink

def red : Ink := ⟨["31"]⟩

def green : Ink := ⟨["32"]⟩

def yellow : Ink := ⟨["33"]⟩

def blue : Ink := ⟨["34"]⟩

def cyan : Ink := ⟨["36"]⟩

/-- The same colour, in bold. -/
def bold (i : Ink) : Ink := ⟨"1" :: i.codes⟩

/-- The same colour, fainter. -/
def dimmed (i : Ink) : Ink := ⟨"2" :: i.codes⟩

/-- What switches to an ink. -/
def opening (i : Ink) : String := "\x1b[" ++ ";".intercalate i.codes ++ "m"

/-- What switches back. -/
def closing : String := "\x1b[0m"

/-- A text in an ink. Where the text switches back itself, the ink is switched on again. -/
def paint (i : Ink) (s : String) : String :=
  i.opening ++ s.replace closing (closing ++ i.opening) ++ closing

end Ink

/-- The ink of the name of a severity. -/
def inkOf : Severity → Ink
  | .error => .red
  | .warning => .yellow
  | .information => .blue
  | .hint => .cyan

/-- How reports are written: whether in colour, and relative to which directory. -/
structure Form where
  colored : Bool
  root : String
deriving DecidableEq, Repr

/-- A text in an ink, if there is colour. -/
def Form.paint (f : Form) (i : Ink) (s : String) : String := if f.colored then i.paint s else s

/-! ### Parts -/

/-- The word for one thing or for several. -/
def plural (count : Nat) (one many : String) : String := if count = 1 then one else many

/-- A path, relative to the root if it is below it. -/
def Form.path (f : Form) (file : String) : String :=
  match Path.relativeTo? file f.root with
  | some relative => "./" ++ relative
  | none => file

/-- A number of blanks. -/
def blanks (n : Nat) : String := String.ofList (List.replicate n ' ')

/-- A text with blanks before it, so that it has at least a width. -/
def alignRight (width : Nat) (s : String) : String := blanks (width - s.length) ++ s

/-- A line without the carriage return at its end. -/
def dropReturn (line : List Char) : List Char :=
  if line.getLast? = some '\r' then line.dropLast else line

/-- The lines of a text, without what ends them. Nothing follows the last line feed if it ends the
text. -/
def sourceLines (text : String) : List (List Char) :=
  let lines := Text.lines text.toList
  lines.dropLast.map dropReturn ++ (lines.getLast?.filter fun line => !line.isEmpty).toList

/-- The beginning of a line up to a column. A character that the column is inside of counts. -/
def upTo : Nat → List Char → List Char
  | _, [] => []
  | 0, _ => []
  | n + 1, c :: cs => c :: upTo (n + 1 - Text.charUnits16 c) cs

/-- How much of a screen comes before a range in its first line, and how much the range takes there:
at least one column. -/
def markSpan (line : List Char) (r : Range) : Nat × Nat :=
  let before := upTo r.start.column line
  let covered := if r.start.line = r.stop.line then upTo r.stop.column line else line
  (Text.columns before, max 1 (Text.columns (covered.drop before.length)))

/-! ### Findings -/

/-- The line that a finding is about, with the part it is about marked below. -/
def excerpt (f : Form) (width : Nat) (line : List Char) (d : Diagnostic) : String :=
  let (before, covered) := markSpan line d.range
  let bar := f.paint .blue "|"
  let number := f.paint .blue (alignRight width (toString (d.range.start.line + 1)))
  let mark := f.paint (inkOf d.severity) (String.ofList (List.replicate covered '^'))
  blanks width ++ " " ++ bar ++ "\n"
    ++ number ++ " " ++ bar ++ " " ++ String.ofList line ++ "\n"
    ++ blanks width ++ " " ++ bar ++ " " ++ blanks before ++ mark ++ "\n"

/-- Where something is: a path, and a line and column counted from one. -/
def pointer (f : Form) (file : String) (p : Position) : String :=
  "  " ++ f.paint .blue "-->" ++ s!" {f.path file}:{p.line + 1}:{p.column + 1}\n"

/-- One finding about a file with some lines. -/
def finding (f : Form) (width : Nat) (file : String) (lines : List (List Char)) (d : Diagnostic) :
    String :=
  f.paint (inkOf d.severity).bold d.severity.label ++ ": \"" ++ d.message ++ "\"  "
    ++ f.paint Ink.cyan.dimmed d.rule.name ++ "\n"
    ++ pointer f file d.range.start
    ++ (match lines[d.range.start.line]? with
      | some line => excerpt f width line d
      | none => "")
    ++ "\n"

/-- How many findings there are: those that are problems, then the others. -/
def summary (f : Form) (findings : Findings) : String :=
  let errors := findings.countOf .error
  let warnings := findings.countOf .warning
  let notes := findings.countOf .information + findings.countOf .hint
  (if errors + warnings = 0 then ""
    else f.paint .red "✘" ++ s!" {errors + warnings} problems ({errors} "
      ++ f.paint .red (plural errors "error" "errors") ++ s!", {warnings} "
      ++ f.paint .yellow (plural warnings "warning" "warnings") ++ ")\n")
    ++ (if notes = 0 then ""
      else s!"{notes} " ++ f.paint .blue (plural notes "note" "notes") ++ "\n")

/-- The width of the largest line number. -/
def numberWidth (findings : Findings) : Nat :=
  let largest := (findings.values.flatten.map fun d => d.range.start.line + 1).foldl max 1
  (toString largest).length

/-- All findings, in files whose texts `read` knows. -/
def listing (f : Form) (read : String → Option String) (findings : Findings) : String :=
  if findings.values.all List.isEmpty then ""
  else
    let width := numberWidth findings
    let shown := findings.entries.flatMap fun e =>
      let lines := ((read e.1).map sourceLines).getD []
      e.2.map (finding f width e.1 lines)
    String.join shown ++ summary f findings

/-- How many findings there are of each severity that occurs. -/
def severityCounts (findings : Findings) : List (Severity × Nat) :=
  (Severity.all.map fun s => (s, findings.countOf s)).filter fun e => e.2 ≠ 0

/-! ### What went well -/

/-- A line that says what went well. -/
def done (f : Form) (s : String) : String := f.paint .green "✓" ++ " " ++ f.paint .green s ++ "\n"

/-- What is told when there are no problems. -/
def consistent (f : Form) (codeFiles catalogFiles : Nat) : String :=
  let code := s!"{codeFiles} code " ++ plural codeFiles "file" "files"
  let catalogs := s!"{catalogFiles} catalog " ++ plural catalogFiles "file" "files"
  done f s!"Checked {code}, {catalogs} - no problems found"

/-- What is told when a configuration was written. -/
def created (f : Form) : String := done f s!"Created {Service.settingsFileName}"

/-! ### Renames -/

/-- An edit that would be made. -/
def edit (f : Form) (file : String) (e : TextEdit) : String :=
  pointer f file e.range.start ++ "      " ++ f.paint .green "+" ++ " " ++ e.newText ++ "\n"

/-- What a rename has done, or would do if it is not applied. -/
def renamed (f : Form) (old new : String) (edits : EditSet) (applied : Bool) : String :=
  let extent := s!"'{old}' to '{new}': {edits.size} location(s) in {edits.fileCount} file(s)."
  if edits.isEmpty then s!"No locations of '{old}' found.\n"
  else if applied then done f ("Renamed " ++ extent)
  else
    String.join (edits.files.flatMap fun e => e.2.map (edit f e.1)) ++ "\n"
      ++ f.paint Ink.yellow.bold "Would rename" ++ " " ++ extent ++ "\n"
      ++ "Run with " ++ f.paint .cyan "--apply" ++ " to write these edits.\n"

end Concord.Report
