import Concord.Dict
import Concord.Text.Position

/-!
# Diagnostics

Every finding about a file is a `Diagnostic`: a range, a message, a severity and the rule that
was broken. Diagnostics are ordered by range, then severity (the most severe first), then rule,
then message. A `Findings` collects them per file.

* `Diagnostic.sort` – a list in that order;
* `Findings.merge` – the findings of two sources together, each touched list sorted;
* `Findings.countOf` – how many findings have a given severity.
-/

namespace Concord

/-- How bad a finding is, the most severe first. -/
inductive Severity where
  | error
  | warning
  | information
  | hint
deriving DecidableEq, Repr, Inhabited

namespace Severity

/-- The place in the order: errors come first. -/
def rank : Severity → Nat
  | error => 0
  | warning => 1
  | information => 2
  | hint => 3

instance : Ord Severity := ⟨compareOn rank⟩

/-- The word that stands for a severity in a report. -/
def label : Severity → String
  | error => "error"
  | warning => "warning"
  | information => "info"
  | hint => "hint"

/-- All severities, the most severe first. -/
def all : List Severity := [error, warning, information, hint]

end Severity

/-- What kind of problem a finding is. -/
inductive Rule where
  | invalidToken
  | unexpectedContinuation
  | unrecognizedLine
  | missingValue
  | emptyValue
  | duplicateKey
  | parseFailure
  | undefinedKey
  | unusedKey
  | missingLanguage
  | settings
deriving DecidableEq, Repr, Inhabited

namespace Rule

/-- The place in the order of rules. -/
def rank : Rule → Nat
  | invalidToken => 0
  | unexpectedContinuation => 1
  | unrecognizedLine => 2
  | missingValue => 3
  | emptyValue => 4
  | duplicateKey => 5
  | parseFailure => 6
  | undefinedKey => 7
  | unusedKey => 8
  | missingLanguage => 9
  | settings => 10

instance : Ord Rule := ⟨compareOn rank⟩

/-- The name of a rule in a report. -/
def name : Rule → String
  | invalidToken => "invalid-token"
  | unexpectedContinuation => "unexpected-continuation"
  | unrecognizedLine => "unrecognized-line"
  | missingValue => "missing-value"
  | emptyValue => "empty-value"
  | duplicateKey => "duplicate-key"
  | parseFailure => "parse-failure"
  | undefinedKey => "undefined-key"
  | unusedKey => "unused-key"
  | missingLanguage => "missing-translation"
  | settings => "settings"

end Rule

/-- One finding about a file. -/
structure Diagnostic where
  range : Range
  message : String
  severity : Severity
  rule : Rule
deriving DecidableEq, Repr, Inhabited

namespace Diagnostic

instance : Ord Diagnostic :=
  ⟨compareLex (compareOn Diagnostic.range) <| compareLex (compareOn Diagnostic.severity) <|
    compareLex (compareOn Diagnostic.rule) (compareOn Diagnostic.message)⟩

/-- A list of findings in order. -/
def sort (ds : List Diagnostic) : List Diagnostic :=
  ds.mergeSort fun a b => (compare a b).isLE

end Diagnostic

/-- Findings per file. -/
abbrev Findings := Dict (List Diagnostic)

namespace Findings

/-- Add a finding about a file. -/
def add (f : Findings) (file : String) (d : Diagnostic) : Findings :=
  f.upsert file fun old => old.getD [] ++ [d]

/-- Add a list of findings about a file and sort what the file then has. -/
def addSorted (f : Findings) (file : String) (ds : List Diagnostic) : Findings :=
  f.upsert file fun old => Diagnostic.sort (old.getD [] ++ ds)

/-- The findings of both; the list of every file that the second reports on is sorted. -/
def merge (f g : Findings) : Findings :=
  g.entries.foldl (fun acc e => acc.addSorted e.1 e.2) f

/-- How many findings have a given severity. -/
def countOf (f : Findings) (s : Severity) : Nat :=
  (f.values.flatten.filter fun d => d.severity = s).length

end Findings

end Concord
