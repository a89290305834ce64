import Concord.Source.Tree

/-!
# Tokens nested by their brackets

A list of tokens with brackets in pairs is a forest: a token by itself, or a pair of brackets with
what stands between them. `Piece.ofTokens` builds the forest. A bracket that is never closed ends
with the text, one that closes nothing is dropped.
-/

namespace Concord.Source

/-- A token by itself, or a pair of brackets around pieces. -/
inductive Piece where
  | leaf (token : Token)
  | group (bracket : Bracket) (bytes : Bytes) (inside : List Piece)
deriving Repr, Inhabited

namespace Piece

/-- A bracket that is still open, with the pieces after it, latest first. -/
structure Open where
  bracket : Bracket
  start : Nat
  pieces : List Piece

/-- The pieces read so far, latest first, innermost bracket first. -/
structure Nesting where
  pieces : List Piece
  outer : List Open

/-- Nothing read yet. -/
def Nesting.empty : Nesting := ⟨[], []⟩

/-- A piece after those read so far. -/
def Nesting.push (n : Nesting) (p : Piece) : Nesting := { n with pieces := p :: n.pieces }

/-- Close the innermost bracket at a byte. -/
def Nesting.close (n : Nesting) (stop : Nat) : Nesting :=
  match n.outer with
  | [] => n
  | o :: outer => ⟨.group o.bracket ⟨o.start, stop⟩ n.pieces.reverse :: o.pieces, outer⟩

/-- Take one more token. An opening bracket is remembered with the pieces before it. -/
def Nesting.step (n : Nesting) (t : Token) : Nesting :=
  match t.shape with
  | .opens b => ⟨[], ⟨b, t.start, n.pieces⟩ :: n.outer⟩
  | .closes _ => n.close t.stop
  | _ => n.push (.leaf t)

/-- Close every bracket at the end of the text. -/
def Nesting.closeAll (stop : Nat) (pieces : List Piece) : List Open → List Piece
  | [] => pieces.reverse
  | o :: outer =>
    closeAll stop (.group o.bracket ⟨o.start, stop⟩ pieces.reverse :: o.pieces) outer

/-- The forest of a list of tokens of a text that ends at byte `stop`. -/
def ofTokens (stop : Nat) (tokens : List Token) : List Piece :=
  let n := tokens.foldl Nesting.step .empty
  Nesting.closeAll stop n.pieces n.outer

/-! ### Questions about a piece -/

/-- Whether a piece is a comment. -/
def isComment : Piece → Bool
  | leaf t =>
    match t.shape with
    | .comment _ => true
    | _ => false
  | group .. => false

/-- Whether a piece is a word. -/
def isWord : Piece → Bool
  | leaf t => t.shape = .word
  | group .. => false

/-- Whether a piece is the given word. -/
def isThatWord (w : String) : Piece → Bool
  | leaf t => t.isWord w
  | group .. => false

/-- Whether a piece is a mark, of those with a property. -/
def isMark (p : String → Bool) : Piece → Bool
  | leaf t => t.shape = .mark && p t.text
  | group .. => false

/-- Whether a piece is a pair of the given brackets. -/
def isGroup (b : Bracket) : Piece → Bool
  | leaf _ => false
  | group b' .. => b = b'

/-- Where a piece begins. -/
def start : Piece → Nat
  | leaf t => t.start
  | group _ bytes _ => bytes.start

/-- Where a piece ends. -/
def stop : Piece → Nat
  | leaf t => t.stop
  | group _ bytes _ => bytes.stop

/-- Whether the first piece that is no comment has a property. -/
def follows (p : Piece → Bool) (next : List Piece) : Bool :=
  match next.dropWhile isComment with
  | q :: _ => p q
  | [] => false

end Piece

end Concord.Source
