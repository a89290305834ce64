import Concord.Source.Scan

/-!
# Tokens of JavaScript and TypeScript

A slash divides or begins a regular expression, a brace holds statements or the entries of an
object, and in JavaScript an angle bracket compares or begins markup. All three depend on whether a
value is expected, so the state remembers what came before. A template, a substitution in it and an
element of markup each switch to rules of their own, kept on a stack.
-/

namespace Concord.Source.Script

/-- What came before. -/
inductive Before where
  /-- Nothing of the statement. -/
  | start
  /-- Something after which a value is expected. -/
  | operator
  /-- The end of a value. -/
  | operand
  /-- A word whose condition is expected in parentheses. -/
  | control
  /-- Something after which a body is expected. -/
  | body
  /-- The dot before a member's name. -/
  | dot
deriving DecidableEq, Repr

/-- What the text being read is part of. -/
inductive Mode where
  /-- Code up to a closing bracket. After the parentheses of a control word comes a body. -/
  | code (bracket : Bracket) (control : Bool)
  | template
  /-- A tag of markup; after a closing one the element ends. -/
  | tag (closing : Bool)
  /-- Between the tags of an element. -/
  | content
deriving DecidableEq, Repr

/-- The state between two tokens. -/
structure State where
  modes : List Mode
  before : Before
  /-- The last token is the first word of a statement, which a colon would make a label. -/
  labelled : Bool
  /-- How many modes were open when a statement began with the word of a case: a colon at that
  depth ends the case. -/
  caseDepth : Option Nat
deriving Repr

/-- At the beginning of a text. -/
def State.initial : State := ⟨[], .start, false, none⟩

/-- Words whose condition stands in parentheses. -/
def controlWords : List String := ["if", "while", "for", "with", "switch", "catch"]

/-- Words before a body. -/
def bodyWords : List String := ["else", "do", "try", "finally"]

/-- Words before a value. -/
def operatorWords : List String :=
  ["return", "typeof", "instanceof", "in", "new", "delete", "void", "throw", "case", "await",
   "yield", "extends", "default", "const", "var", "let"]

/-- What comes before the next token, after a word. -/
def afterWord (before : Before) (word : String) : Before :=
  if before = .dot then .operand
  else if controlWords.contains word then .control
  else if bodyWords.contains word then .body
  else if operatorWords.contains word then .operator
  else if word = "export" then .start
  else if word = "of" && before = .operand then .operator
  else .operand

/-- Marks of more than one character. -/
def longMarks : List String :=
  ["...", "=>", "===", "!==", "==", "!=", "&&", "||", "??", "++", "--", "?."]

/-- What comes before the next token, after a mark. A postfix mark leaves the value before it the
last thing read. -/
def afterMark (markup : Bool) (s : State) (text : String) : Before :=
  if text = ";" then .start
  else if text = "=>" then .body
  else if text = "." || text = "?." then .dot
  else if text = "++" || text = "--" then
    if s.before = .operand then .operand else .operator
  else if text = "!" && !markup && s.before = .operand then .operand
  else if text = ":" then
    match s.modes with
    | .code .braces _ :: _ | .code .round _ :: _ | .code .square _ :: _ => .operator
    | _ =>
      if s.caseDepth = some s.modes.length || s.labelled then .start else .operator
  else .operator

/-- The rest of a regular expression: up to a slash outside brackets, and the flags. -/
def throughRegex (inClass : Bool) : List Char → Nat
  | [] => 0
  | '\\' :: _ :: cs => throughRegex inClass cs + 2
  | c :: cs =>
    if c = '/' && !inClass then 1 + Scan.run Scan.isNameChar cs
    else throughRegex (if c = '[' then true else if c = ']' then false else inClass) cs + 1

/-- Whether a character may stand in a name. -/
def isNameChar (c : Char) : Bool := Scan.isNameChar c || c = '$'

/-- The rest of a name, in which a character may be given by its number. -/
def throughName : List Char → Nat
  | '\\' :: 'u' :: '{' :: cs =>
    let n := Scan.through ['}'] cs
    n + 3 + Scan.run isNameChar (cs.drop n)
  | '\\' :: 'u' :: cs => 2 + Scan.run isNameChar cs
  | c :: cs => if isNameChar c then throughName cs + 1 else 0
  | [] => 0

/-- A step that gives one token and leaves the modes alone. -/
def give (s : State) (shape : Shape) (extra : Nat) (before : Before) : LexStep State :=
  ⟨some shape, extra, { s with before := before, labelled := false }⟩

/-- A step that gives nothing. -/
def skip (s : State) (extra : Nat) : LexStep State := ⟨none, extra, s⟩

/-- A step into a new mode. -/
def enter (s : State) (b : Bracket) (extra : Nat) (mode : Mode) (before : Before) :
    LexStep State :=
  ⟨some (.opens b), extra, { s with modes := mode :: s.modes, before := before, labelled := false }⟩

/-- A step out of the innermost mode. -/
def leave (s : State) (b : Bracket) (extra : Nat) (before : Before) : LexStep State :=
  ⟨some (.closes b), extra,
    { s with modes := s.modes.tail, before := before, labelled := false }⟩

/-- Whether a value is expected. -/
def State.wantsValue (s : State) : Bool :=
  s.before = .start || s.before = .operator || s.before = .body

/-- A step at a word. -/
def word (s : State) (c : Char) (cs : List Char) : LexStep State :=
  let extra := throughName cs
  let text := String.ofList (c :: cs.take extra)
  let atStart := s.before = .start
  let opensCase := atStart && (text = "case" || text = "default")
  ⟨some .word, extra,
    { s with
      before := afterWord s.before text
      labelled := atStart
      caseDepth := if opensCase then some s.modes.length else s.caseDepth }⟩

/-- A step at a closing bracket of code. -/
def close (s : State) : LexStep State :=
  match s.modes with
  | .code b control :: _ =>
    leave s b 0 <|
      if control then .body
      else if b = .block then .start
      else .operand
  | _ => skip s 0

/-- A step inside code; `markup` says whether an angle bracket may begin an element. -/
def code (markup : Bool) (s : State) (c : Char) (cs : List Char) : LexStep State :=
  if Scan.isGap c then skip s 0
  else if c = '/' && Scan.begins cs "/" then ⟨some (.comment .line), Scan.toLineEnd cs, s⟩
  else if c = '/' && Scan.begins cs "*" then
    ⟨some (.comment .block), 1 + Scan.through ['*', '/'] (cs.drop 1), s⟩
  else if c = '<' && Scan.begins cs "!--" && s.wantsValue then
    ⟨some (.comment .markup), Scan.toLineEnd cs, s⟩
  else if c = '#' && Scan.begins cs "!" then ⟨some (.comment .line), Scan.toLineEnd cs, s⟩
  else if c = '"' || c = '\'' then give s (.literal .string) (Scan.throughQuote c cs) .operand
  else if c = '\x60' then enter s (.quoted (some .template)) 0 .template .operator
  else if c.isDigit || (c = '.' && Scan.startsWithDigit cs && s.before ≠ .operand) then
    give s .operand (Scan.number (fun _ => c ≠ '.') cs) .operand
  else if isNameChar c || c = '#' || c = '\\' then
    if c = '\\' then
      let n := throughName (c :: cs)
      ⟨some .word, n - 1, { s with before := .operand, labelled := false }⟩
    else word s c cs
  -- where no value is expected a slash divides and an angle bracket compares
  else if c = '/' && s.wantsValue then give s .operand (throughRegex false cs) .operand
  else if c = '<' && markup && s.wantsValue then enter s .markup 0 (.tag false) .operator
  else if c = '(' then enter s .round 0 (.code .round (s.before = .control)) .operator
  else if c = '[' then enter s .square 0 (.code .square false) .operator
  -- an object where a value is expected, statements elsewhere
  else if c = '{' then
    if s.before = .operator then enter s .braces 0 (.code .braces false) .operator
    else enter s .block 0 (.code .block false) .start
  else if c = ')' || c = ']' || c = '}' then close s
  -- a condition before a number such as `.5`
  else if c = '?' && Scan.begins cs "." && Scan.startsWithDigit (cs.drop 1) then
    give s .mark 0 .operator
  else
    let extra := Scan.mark longMarks (c :: cs) - 1
    let text := String.ofList (c :: cs.take extra)
    let ended := text = ":" && s.caseDepth = some s.modes.length
    give { s with caseDepth := if ended then none else s.caseDepth } .mark extra
      (afterMark markup s text)

/-- A step inside a template. -/
def template (s : State) (c : Char) (cs : List Char) : LexStep State :=
  if c = '\\' then skip s 1
  else if c = '\x60' then leave s (.quoted (some .template)) 0 .operand
  else if c = '$' && Scan.begins cs "\x7b" then
    enter s .substitution 1 (.code .substitution false) .operator
  else skip s 0

/-- The state with the innermost mode replaced. -/
def State.become (s : State) (mode : Mode) : State := { s with modes := mode :: s.modes.tail }

/-- A step inside a tag. -/
def tag (closing : Bool) (s : State) (c : Char) (cs : List Char) : LexStep State :=
  if c = '{' then enter s .substitution 0 (.code .substitution false) .operator
  else if c = '"' || c = '\'' then skip s (Scan.through [c] cs)
  else if c = '/' && Scan.begins cs "*" then skip s (1 + Scan.through ['*', '/'] (cs.drop 1))
  else if c = '/' && Scan.begins cs ">" then leave s .markup 1 .operand
  else if c = '>' then
    if closing then leave s .markup 0 .operand else skip (s.become .content) 0
  else skip s 0

/-- A step between tags. -/
def content (s : State) (c : Char) (cs : List Char) : LexStep State :=
  if c = '{' then enter s .substitution 0 (.code .substitution false) .operator
  else if c = '<' then
    if Scan.begins cs "/" then skip (s.become (.tag true)) 1
    else enter s .markup 0 (.tag false) .operator
  else skip s 0

/-- The lexer of JavaScript with markup, and without it that of TypeScript. -/
def lexer (markup : Bool) : Lexer State := fun s c cs =>
  match s.modes with
  | .template :: _ => template s c cs
  | .tag closing :: _ => tag closing s c cs
  | .content :: _ => content s c cs
  | _ => code markup s c cs

end Concord.Source.Script
