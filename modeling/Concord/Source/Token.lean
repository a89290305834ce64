import Concord.Text.Measure

/-!
# Tokens of source code

A source text is cut into tokens that tell just enough to find the calls in it: words, marks,
string literals, comments, and brackets in matching pairs. A string with substitutions is a pair of
brackets too, each substitution in it another pair around ordinary tokens. Blanks give no token, nor
does the text of a string with substitutions.

* `Token` – a token with its bytes;
* `Lexer`, `tokens` – a lexer is a function from a state and the rest of the text to one step; the
  steps are taken one after the other to the end of the text.
-/

namespace Concord.Source

/-- The kinds of string literals. -/
inductive LiteralKind where
  /-- Between quotes. -/
  | string
  /-- Between backquotes. -/
  | template
  /-- Between quotes after an `@`. -/
  | verbatim
  /-- Between runs of three or more quotes. -/
  | rawRun
deriving DecidableEq, Repr, Inhabited

/-- The kinds of comments, and of what is skipped as they are. -/
inductive CommentKind where
  /-- Up to the end of the line. -/
  | line
  /-- Between two marks. -/
  | block
  /-- A line of a script inside markup. -/
  | markup
  /-- The mark at the end of a line that goes on. -/
  | continuation
deriving DecidableEq, Repr, Inhabited

/-- The pairs of brackets. -/
inductive Bracket where
  | round
  | square
  /-- Around statements. -/
  | block
  /-- Around the entries of a value. -/
  | braces
  /-- Around a string with substitutions; it is a literal if it has a kind. -/
  | quoted (kind : Option LiteralKind)
  /-- Around the code of a substitution. -/
  | substitution
  /-- Around an element of markup. -/
  | markup
deriving DecidableEq, Repr, Inhabited

/-- What a token is. -/
inductive Shape where
  | word
  /-- A value that is neither a name nor a string. -/
  | operand
  | literal (kind : LiteralKind)
  | mark
  | comment (kind : CommentKind)
  | lineEnd
  | opens (b : Bracket)
  | closes (b : Bracket)
deriving DecidableEq, Repr, Inhabited

/-- A token with the bytes it takes up. The text of words and marks is kept. -/
structure Token where
  shape : Shape
  start : Nat
  stop : Nat
  text : String
deriving DecidableEq, Repr, Inhabited

namespace Token

/-- Whether a token is the given mark. -/
def isMark (t : Token) (m : String) : Bool := t.shape = .mark && t.text = m

/-- Whether a token is the given word. -/
def isWord (t : Token) (w : String) : Bool := t.shape = .word && t.text = w

end Token

/-- One step of a lexer: what was read, how many characters after the first it took, and the state
after it. -/
structure LexStep (σ : Type) where
  shape : Option Shape
  extra : Nat
  state : σ

/-- A lexer looks at its state, the next character and what follows. -/
abbrev Lexer (σ : Type) := σ → Char → List Char → LexStep σ

/-- The text that is kept for a token. -/
def keptText (shape : Shape) (taken : List Char) : String :=
  match shape with
  | .word | .mark => String.ofList taken
  | _ => ""

/-- The tokens of a text that begins at byte `offset`. -/
def tokens {σ : Type} (lexer : Lexer σ) (state : σ) (offset : Nat) : List Char → List Token
  | [] => []
  | c :: cs =>
    let step := lexer state c cs
    let taken := c :: cs.take step.extra
    let stop := offset + Text.bytes taken
    let rest := tokens lexer step.state stop (cs.drop step.extra)
    match step.shape with
    | none => rest
    | some shape => ⟨shape, offset, stop, keptText shape taken⟩ :: rest
termination_by cs => cs.length
decreasing_by simp only [List.length_cons, List.length_drop]; omega

end Concord.Source
