import Concord.Catalog.Quoted
import Concord.Text.Blank

/-!
# The lines of a catalog

A line is looked at without the blanks at its ends. It is blank, a comment, a keyword with a
quoted string, a quoted string alone, or none of these; a keyword that is not followed by one
well-formed quoted string is malformed.

* `Line.classify` – what a line is;
* `leadingKeyword?` – the keyword a line begins with.
-/

namespace Concord.Catalog

/-- The keywords. A value is *main* when it is the only one or that of plural form zero. -/
inductive Keyword where
  | context
  | id
  | plural
  | value (main : Bool)
deriving DecidableEq, Repr

/-- What a line is. -/
inductive Line where
  | blank
  | comment
  | keyword (k : Keyword) (text : List Char)
  | malformed (token : List Char)
  | continuation (quoted text : List Char)
  | unrecognized (line : List Char)
deriving DecidableEq, Repr

/-- What follows `word` at the beginning of a text. -/
def after? (word : List Char) (cs : List Char) : Option (List Char) :=
  if word.isPrefixOf cs then some (cs.drop word.length) else none

/-- A plural index in brackets, with what follows it. -/
def pluralIndex? : List Char → Option (List Char × List Char)
  | '[' :: cs =>
    let digits := cs.takeWhile Text.isDecimalDigit
    match digits, cs.dropWhile Text.isDecimalDigit with
    | _ :: _, ']' :: rest => some (digits, rest)
    | _, _ => none
  | _ => none

/-- The keyword that a text begins with: the keyword, its text, and what follows. -/
def leadingKeyword? (cs : List Char) : Option (Keyword × List Char × List Char) :=
  match after? "msgctxt".toList cs with
  | some rest => some (.context, "msgctxt".toList, rest)
  | none =>
    match after? "msgid_plural".toList cs with
    | some rest => some (.plural, "msgid_plural".toList, rest)
    | none =>
      match after? "msgid".toList cs with
      | some rest => some (.id, "msgid".toList, rest)
      | none =>
        match after? "msgstr".toList cs with
        | none => none
        | some rest =>
          match pluralIndex? rest with
          | none => some (.value true, "msgstr".toList, rest)
          | some (digits, rest) =>
            some (.value (digits.all (· == '0')),
              "msgstr[".toList ++ digits ++ [']'], rest)

/-- The quoted string that stands apart by at least one blank. -/
def separated? (rest : List Char) : Option (List Char) :=
  match rest with
  | c :: cs => if Text.isBlank c then some (cs.dropWhile Text.isBlank) else none
  | [] => none

/-- What a line is, given without the blanks at its ends. -/
def Line.classify (line : List Char) : Line :=
  match line with
  | [] => .blank
  | '#' :: _ => .comment
  | _ =>
    match leadingKeyword? line with
    | some (k, token, rest) =>
      match (separated? rest).bind Quoted.unquote? with
      | some text => .keyword k text
      | none => .malformed token
    | none =>
      match Quoted.unquote? line with
      | some text => .continuation line text
      | none => .unrecognized line

/-- What a line of a file is. -/
def Line.ofRaw (raw : List Char) : Line := .classify (Text.trim raw)

end Concord.Catalog
