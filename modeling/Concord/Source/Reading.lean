import Concord.Source.Grammar
import Concord.Source.Piece

/-!
# From nested tokens to an outline

Reading goes over the pieces between two brackets from left to right. A **segment** is what commas
and semicolons separate. A segment consists of **values** and of what stands between them; a value
grows to the right: a name takes a member, arguments or a subscript and becomes an access, a call
or a subscript. A segment that is one value keeps its kind; anything longer is one node of kind
`other` around its parts.

* `State` – how far the reading of the pieces between two brackets has come;
* `State.operand`, `State.extend`, `State.leaf` – the three ways in which it goes on;
* `readAll` – the whole of it, bracket by bracket;
* `outlineOf` – the outline of a text.
-/

namespace Concord.Source

/-- What came before, in the statement being read. -/
inductive Before where
  | start
  | operator
  | operand
deriving DecidableEq, Repr

/-- What a mark has announced about the next word or bracket. -/
inductive Link where
  | none
  /-- The name of a member. -/
  | member
  /-- A name that makes a plain value. -/
  | qualifier
  /-- A member or brackets of what may be missing, from a byte on. -/
  | binding (start : Nat)
deriving DecidableEq, Repr

/-- What the next pair of parentheses belongs to, if not to a value. -/
inductive Owner where
  | none
  /-- A word of the language. -/
  | keyword
  /-- A word that is a value together with them, from its first byte. -/
  | value (start : Nat)
deriving DecidableEq, Repr

/-- What has been read of an object creation that names its type. -/
inductive Construction where
  | none
  /-- The type: arguments, dimensions or an initializer may follow. -/
  | type
  /-- The arguments too: a body or an initializer may follow. -/
  | arguments
deriving DecidableEq, Repr

/-- Where parentheses after a name make no call. -/
inductive Plain where
  | nowhere
  /-- Between these brackets. -/
  | here
  /-- Also between the brackets inside. -/
  | deep
deriving DecidableEq, Repr

/-- How far the reading of the pieces between two brackets has come. Lists of nodes have the latest
first. -/
structure State where
  /-- The brackets hold statements. -/
  statements : Bool
  /-- The segments that are complete. -/
  segments : List (List Outline)
  /-- The parts of this segment before the value being read. -/
  parts : List Outline
  /-- The value being read. -/
  value : Option Outline
  /-- The comments after it. -/
  comments : List Outline
  before : Before
  link : Link
  owner : Owner
  construction : Construction
  plain : Plain
  /-- Object creations without arguments so far: where each begins. -/
  creations : List Nat
  /-- Functions and classes that are values and have no body yet: where each begins. -/
  bodies : List Nat
  /-- Where a word before a function began. -/
  lead : Option Nat
  /-- The head of a type declaration is being read; whether it is an enumeration. -/
  declaring : Option Bool
  /-- How many of the next pieces have been dealt with already. -/
  skip : Nat

namespace State

/-- The beginning of a pair of brackets. -/
def initial (statements : Bool) (plain : Plain) : State where
  statements := statements
  segments := []
  parts := []
  value := none
  comments := []
  before := if statements then .start else .operator
  link := .none
  owner := .none
  construction := .none
  plain := plain
  creations := []
  bodies := []
  lead := none
  declaring := none
  skip := 0

/-! ### Nodes -/

/-- A node that is a part of its parent. -/
def part (kind : Kind) (bytes : Bytes) (children : List Outline) : Outline :=
  .node .part kind bytes children

/-- The bytes from one node to the end of another. -/
def span (first last : Outline) : Bytes := ⟨first.bytes.start, last.bytes.stop⟩

/-- The parts of a segment as nodes: the comments at its ends by themselves, and between them one
node. -/
def segmentNodes (parts : List Outline) : List Outline :=
  let leading := parts.takeWhile Outline.isComment
  let rest := parts.dropWhile Outline.isComment
  let trailing := (rest.reverse.takeWhile Outline.isComment).reverse
  let core := (rest.reverse.dropWhile Outline.isComment).reverse
  match core with
  | [] => parts
  | [t] => leading ++ [t] ++ trailing
  | first :: others =>
    leading ++ [part .other (span first (others.getLastD first)) core] ++ trailing

/-! ### Going on -/

/-- Complete the value being read. Creations that wait for arguments have none. -/
def finish (s : State) : State :=
  match s.value with
  | none => { s with parts := s.comments ++ s.parts, comments := [], link := .none }
  | some v =>
    let made := s.creations.foldl (fun v start => part .other ⟨start, v.bytes.stop⟩ [v]) v
    { s with
      parts := s.comments ++ made :: s.parts
      value := none
      comments := []
      creations := []
      link := .none
      construction := .none }

/-- Begin a new value. -/
def operand (s : State) (t : Outline) : State :=
  { s.finish with value := some t, before := .operand, lead := none }

/-- Let a value take what follows it: a node of a kind around the value, in a role, and the parts
after it. -/
def extend (s : State) (v : Outline) (kind : Kind) (role : Role) (more : List Outline)
    (stop : Nat) : State :=
  { s with
    value := some <|
      part kind ⟨v.bytes.start, stop⟩ (v.withRole role :: s.comments.reverse ++ more)
    comments := []
    before := .operand
    link := .none
    lead := none }

/-- Take a part that is no value. -/
def leaf (s : State) (t : Outline) (before : Before) : State :=
  let s := s.finish
  { s with parts := t :: s.parts, before := before, lead := none }

/-- Take a comment. -/
def comment (s : State) (t : Outline) : State :=
  match s.value with
  | none => { s with parts := t :: s.parts }
  | some _ => { s with comments := t :: s.comments }

/-- Complete the segment. -/
def endSegment (s : State) (before : Before) : State :=
  let s := s.finish
  { s with
    segments := segmentNodes s.parts.reverse :: s.segments
    parts := []
    before := before
    lead := none }

/-- The segments, in the order of the text. -/
def result (s : State) : List (List Outline) := (s.endSegment .operator).segments.reverse

/-- The value being read, if something may be attached to it. -/
def attachable (s : State) : Option Outline := if s.before = .operand then s.value else none

end State

/-! ### Looking ahead -/

/-- Words of types that parentheses may follow. -/
def typeWords : List String :=
  ["new", "import", "keyof", "readonly", "unique", "infer", "extends", "is", "asserts", "typeof"]

/-- Whether a piece is the name of a type. -/
def isTypeName (p : Piece) : Bool := p.isWord && !typeWords.any fun w => p.isThatWord w

/-- Whether a piece may stand in a list of types, given whether a name comes before it. Arguments
after a name make no type. -/
def isTypePiece (afterName : Bool) : Piece → Bool
  | .leaf t =>
    match t.shape with
    | .mark => [",", ".", "|", "&", "?", ":", "=>", "::", "*", "...", "@", "-"].contains t.text
    | _ => true
  | .group b .. => !(afterName && b = .round)

/-- How many pieces there are up to the angle bracket that closes `depth` more, and what follows
them. -/
def throughAngles (depth : Nat) (afterName : Bool) : List Piece → Option (Nat × List Piece)
  | [] => none
  | p :: ps =>
    let next :=
      if p.isMark (· = "<") then throughAngles (depth + 1) false ps
      else if p.isMark (· = ">") then
        match depth with
        | 0 => some (0, ps)
        | d + 1 => throughAngles d false ps
      else if isTypePiece afterName p then throughAngles depth (isTypeName p) ps
      else none
    next.map fun r => (r.1 + 1, r.2)

/-- How many pieces name a type, up to its arguments, dimensions or initializer. A word after a
word is no longer part of it. -/
def typeLength (depth : Nat) (afterWord : Bool) : List Piece → Nat
  | [] => 0
  | p :: ps =>
    if p.isMark (· = "<") then typeLength (depth + 1) false ps + 1
    else if 0 < depth then
      typeLength (if p.isMark (· = ">") then depth - 1 else depth) false ps + 1
    else if p.isWord then if afterWord then 0 else typeLength 0 true ps + 1
    else if p.isComment || p.isMark fun m => [".", "::", "?", "*", "@"].contains m then
      typeLength 0 false ps + 1
    else 0

/-- How many pieces the name of an annotation takes. -/
def annotationLength : List Piece → Nat
  | w :: d :: ps =>
    if w.isWord then if d.isMark (· = ".") then annotationLength ps + 2 else 1 else 0
  | [w] => if w.isWord then 1 else 0
  | [] => 0

/-- Whether brackets before some pieces hold attributes: after more of the like, something is
declared or, at the start of a statement, nothing follows at all. -/
def attributesBefore (g : Grammar) (atStart : Bool) : List Piece → Bool
  | [] => atStart
  | p :: ps =>
    if p.isComment || p.isGroup .square then attributesBefore g atStart ps
    else
      p.isWord && !g.infixWords.any (fun w => p.isThatWord w)
        || atStart && p.isGroup .round

/-- Whether a line has a colon outside brackets. -/
def lineHasColon : List Piece → Bool
  | [] => false
  | .leaf t :: ps => !(t.shape = .lineEnd) && (t.isMark ":" || lineHasColon ps)
  | .group .. :: ps => lineHasColon ps

/-- Marks that a pattern may begin with. -/
def patternMarks : List String := ["-", "*", "~", "+"]

namespace State

/-! ### Words -/

/-- Begin the creation of an object whose type follows, from a byte and with the parts so far. -/
def construct (s : State) (start stop : Nat) (parts : List Outline) (next : List Piece) : State :=
  let length := typeLength 0 false next
  let stop := (next.take length).foldl (fun n p => max n p.stop) stop
  { s with
    value := some (part .other ⟨start, stop⟩ parts)
    comments := []
    before := .operand
    link := .none
    construction := .type
    lead := none
    skip := length }

/-- The name of a member. -/
def memberName (t : Token) : Outline :=
  let kind := if t.text.toList.head? = some '#' then Kind.hidden else .member
  .node .member kind ⟨t.start, t.stop⟩ []

/-- A word after the mark of a member access. -/
def memberWord (g : Grammar) (s : State) (v : Outline) (t : Token) (next : List Piece) : State :=
  if g.creation = .typed && t.text = "new" then s.construct v.bytes.start t.stop [v] next
  else s.extend v .access .receiver [memberName t] t.stop

/-- A word of a language, or a name. -/
def plainWord (g : Grammar) (s : State) (t : Token) (next : List Piece) : State :=
  let bytes : Bytes := ⟨t.start, t.stop⟩
  let mark := part .other bytes []
  let name := part .name bytes []
  let operator := s.leaf mark .operator
  let beforeRound := Piece.follows (Piece.isGroup .round) next
  let beforeMark := Piece.follows (Piece.isMark fun _ => true) next
  -- the creation of an object: its type is skipped, or its constructor is read as a value
  if g.creation ≠ .none && t.text = "new" then
    if g.creation = .typed then s.finish.construct t.start t.stop [] next
    else if beforeMark then s.operand name
    else
      let s := s.finish
      { s with creations := t.start :: s.creations, before := .operator }
  -- a function or a class is a value only where one is expected
  else if g.functions.contains t.text || g.classes.contains t.text then
    if Piece.follows (Piece.isMark (· ≠ "*")) next then s.operand name
    else if s.before = .operator then
      { operator with bodies := s.lead.getD t.start :: s.bodies }
    else operator
  else if t.text = "async" && Piece.follows (Piece.isThatWord "function") next then
    let before := s.before
    let s := s.leaf mark before
    { s with lead := some t.start }
  else if g.controls.contains t.text
      && (beforeRound || t.text = "for" && Piece.follows (Piece.isThatWord "await") next) then
    { operator with owner := .keyword }
  else if g.wrappers.contains t.text && beforeRound then
    let s := s.finish
    { s with owner := .value t.start }
  -- the name that is declared is no value, and what follows it is no call
  else if g.declarers.contains t.text && Piece.follows Piece.isWord next then
    { operator with owner := .keyword, skip := 1 }
  else if g.typeHeads.contains t.text
      || g.softTypeHeads.contains t.text && Piece.follows Piece.isWord next then
    { operator with declaring := some (t.text = "enum") }
  else if g.starters.contains t.text then s.leaf mark .start
  else if g.infixWords.contains t.text && s.before = .operand then operator
  else if g.operators.contains t.text || g.controls.contains t.text
      || g.wrappers.contains t.text then
    { operator with plain := if t.text = "if" && s.plain = .deep then .nowhere else s.plain }
  else if g.values.contains t.text then s.operand mark
  -- a line such as `match x:` begins with a word that elsewhere is a name
  else if g.matching.contains t.text && s.before = .start && lineHasColon next
      && !Piece.follows (Piece.isMark fun m => !patternMarks.contains m) next then
    { operator with plain := if t.text = "case" then .deep else s.plain }
  else s.operand name

/-- Take a word. -/
def word (g : Grammar) (s : State) (t : Token) (next : List Piece) : State :=
  match s.link, s.attachable with
  | .member, some v => s.memberWord g v t next
  | .qualifier, some v => s.extend v .other .part [] t.stop
  | .binding start, some v =>
    s.extend v .conditional .receiver [part .memberBinding ⟨start, t.stop⟩ [memberName t]] t.stop
  | _, _ => plainWord g { s with construction := .none } t next

/-! ### Marks -/

/-- Take a mark that opens a list of type arguments, if it is one. -/
def angle? (g : Grammar) (s : State) (next : List Piece) : Option State :=
  match s.attachable, throughAngles 0 false next with
  | some v, some (length, rest) =>
    let stop := (next.take length).foldl (fun n p => max n p.stop) v.bytes.stop
    let value := if g.genericNames then v.withTypeArguments stop else v
    let skipped := some { s with value := some value, skip := length }
    if s.link = .member then skipped
    else match g.typeArguments with
      | .calls =>
        if Piece.follows (Piece.isGroup .round) rest
            || Piece.follows (Piece.isGroup (.quoted (some .template))) rest
            || g.creation = .typed && Piece.follows (Piece.isMark fun m => m = "." || m = "::") rest
            || !s.creations.isEmpty then skipped
        else none
      | _ => none
  | _, _ => none

/-- Take a mark after a value. -/
def markAfter (g : Grammar) (s : State) (v : Outline) (t : Token) (next : List Piece) : State :=
  let leaf := s.leaf (part .other ⟨t.start, t.stop⟩ []) .operator
  match t.text with
  | "." => { s with link := .member }
  | "->" => if g.arrowAccess then { s with link := .member } else leaf
  | "?." => { s with link := if g.conditionalAccess then .binding (t.start + 1) else .member }
  | "::" => { s with link := .qualifier }
  | "?" =>
    let adjacent := next.head?.any fun p => p.isGroup .square && p.start = t.stop
    if g.conditionalAccess && adjacent then { s with link := .binding t.stop } else leaf
  | "!" =>
    match g.bang with
    | .nonNull => s.extend v .nonNull .part [] t.stop
    | .other => s.extend v .other .part [] t.stop
    | .operator => leaf
  | "<" => (s.angle? g next).getD leaf
  | _ => leaf

/-- Take a mark. -/
def mark (g : Grammar) (s : State) (t : Token) (next : List Piece) : State :=
  let s := { s with construction := .none }
  let leaf := s.leaf (part .other ⟨t.start, t.stop⟩ []) .operator
  if t.text = ";" then
    { s.endSegment (if s.statements then .start else .operator) with
      owner := .none
      bodies := []
      declaring := none
      plain := if s.plain = .here then .nowhere else s.plain }
  else if t.text = "," then s.endSegment .operator
  else if t.text = "=>" then { leaf with declaring := none }
  else if t.text = ":" then
    { leaf with
      owner := .none
      plain := if s.statements && s.plain = .deep then .nowhere else s.plain }
  else if t.text = "@" && g.annotations && !Piece.follows (Piece.isThatWord "interface") next then
    let length := annotationLength next
    let own := Piece.follows (Piece.isGroup .round) (next.drop length)
    { leaf with skip := length, owner := if own then .keyword else s.owner }
  else match s.attachable with
    | none => leaf
    | some v => s.markAfter g v t next

/-! ### Strings -/

/-- Whether a value is a string, or several next to each other. -/
def isString (t : Outline) : Bool :=
  t.kind = .literal .string
    || t.kind = .other && t.children.head?.any fun c => c.kind = .literal .string

/-- Take a string. -/
def string (g : Grammar) (s : State) (t : Outline) : State :=
  match s.attachable with
  | some v =>
    if g.joinsStrings && isString v && s.link = .none then
      s.extend v .other .part [t] t.bytes.stop
    else s.operand t
  | none => s.operand t

/-- Take a token that is no bracket. -/
def token (g : Grammar) (s : State) (t : Token) (next : List Piece) : State :=
  let bytes : Bytes := ⟨t.start, t.stop⟩
  match t.shape with
  | .word => s.word g t next
  | .mark => s.mark g t next
  | .comment kind => s.comment (part (.comment kind) bytes [])
  | .lineEnd => { s.endSegment .start with owner := .none, plain := .nowhere }
  | .literal kind => s.string g (part (.literal kind) bytes [])
  | _ => s.operand (part .other bytes [])

/-! ### Brackets -/

/-- How the inside of brackets is read. -/
def inside (g : Grammar) (s : State) (b : Bracket) (next : List Piece) : State :=
  let inherited := if s.plain = .deep then Plain.deep else .nowhere
  match b with
  | .block =>
    initial true (if g.enumCalls && s.declaring = some true then .here else .nowhere)
  | .square =>
    initial false
      (if g.attributes && s.attachable.isNone && attributesBefore g (s.before = .start) next
        then .here else inherited)
  | _ => initial false inherited

/-- Whether a value may be called. -/
def callable (g : Grammar) (v : Outline) : Bool :=
  g.callsValues || v.isName || v.kind = .access

/-- The arguments of a call, by segments. -/
def argumentNodes (g : Grammar) (segments : List (List Outline)) : List Outline :=
  if g.wrapsArguments then
    segments.flatten.map fun t => if t.isComment then t else part .argument t.bytes [t]
  else segments.flatten

/-- Let a value be called with arguments. A call may have the parts of its callee for its own. -/
def call (g : Grammar) (s : State) (v : Outline) (arguments : Outline) : State :=
  let stop := arguments.bytes.stop
  if g.flatCalls && v.kind = .access then
    let parts := v.children.map fun t => if t.role = .member then t.withRole .callee else t
    let made := part .call ⟨v.bytes.start, stop⟩ (parts ++ s.comments.reverse ++ [arguments])
    { s with value := some made, comments := [], before := .operand, link := .none, lead := none }
  else s.extend v .call .callee [arguments] stop

/-- Take a pair of parentheses around segments. -/
def round (g : Grammar) (s : State) (bytes : Bytes) (segments : List (List Outline)) : State :=
  let contents := segments.flatten
  let plain := part .other bytes contents
  let group :=
    if segments.length = 1 then part .parenthesized bytes contents else plain
  match s.owner with
  | .keyword => { s.leaf plain .operator with owner := .none }
  | .value start => { s.operand (part .other ⟨start, bytes.stop⟩ [plain]) with owner := .none }
  | .none =>
    match s.attachable with
    | none => s.operand group
    | some v =>
      if s.construction = .type then
        { s.extend v .other .part [plain] bytes.stop with construction := .arguments }
      else match s.creations with
        | start :: creations =>
          let made := part .other ⟨start, bytes.stop⟩ (v :: s.comments.reverse ++ [plain])
          { s with
            value := some made
            comments := []
            before := .operand
            link := .none
            creations := creations }
        | [] =>
          -- attributes, constants of enumerations and heads of types look like calls
          if s.plain ≠ .nowhere || s.declaring.isSome then
            s.extend v .other .part [plain] bytes.stop
          else if callable g v then
            s.call g v (.node .arguments .arguments bytes (argumentNodes g segments))
          else s.operand group

/-- Take a pair of square brackets. After a value they make a subscript, or a type if there is
nothing between them. -/
def square (g : Grammar) (s : State) (bytes : Bytes) (contents : List Outline) (next : List Piece) :
    State :=
  let plain := part .other bytes contents
  if s.owner = .keyword then s.leaf plain .operator
  else match s.attachable with
    | none =>
      if g.attributes && attributesBefore g (s.before = .start) next then s.leaf plain s.before
      else s.operand plain
    | some v =>
      if s.construction = .type || contents.isEmpty then
        s.extend v .other .part [plain] bytes.stop
      else match s.link with
        | .binding _ =>
          s.extend v .conditional .receiver [part .elementBinding bytes contents] bytes.stop
        | _ => s.extend v .subscript .part [plain] bytes.stop

/-- Take a pair of braces around statements. -/
def block (s : State) (bytes : Bytes) (contents : List Outline) : State :=
  let body := part .other bytes contents
  match s.attachable, s.construction, s.bodies with
  | some v, .type, _ | some v, .arguments, _ =>
    { s.extend v .other .part [body] bytes.stop with construction := .none }
  | _, _, start :: bodies =>
    let s := s.finish
    -- the head of the function or class, latest part first
    let own := s.parts.takeWhile fun t => start ≤ t.bytes.start
    { s with
      parts := s.parts.drop own.length
      value := some (part .other ⟨start, bytes.stop⟩ (own.reverse ++ [body]))
      before := .operand
      bodies := bodies
      declaring := none }
  | _, _, [] =>
    let s := { s.leaf body .start with declaring := none }
    if s.statements then s.endSegment .start else s

/-- Take a string with substitutions. -/
def quoted (g : Grammar) (s : State) (kind : Option LiteralKind) (bytes : Bytes)
    (contents : List Outline) : State :=
  match kind with
  | none => s.operand (part .other bytes contents)
  | some k =>
    let literal := part (.literal k) bytes contents
    match s.attachable with
    | some v =>
      if g.tagsTemplates && k = .template then
        if s.creations.isEmpty then
          s.extend v .call .callee [literal.withRole .arguments] bytes.stop
        else s.extend v .other .part [literal] bytes.stop
      else s.string g literal
    | none => s.string g literal

/-- Take a pair of brackets around segments. -/
def group (g : Grammar) (s : State) (b : Bracket) (bytes : Bytes) (segments : List (List Outline))
    (next : List Piece) : State :=
  let contents := segments.flatten
  match b with
  | .round => s.round g bytes segments
  | .square => s.square g bytes contents next
  | .block => s.block bytes contents
  | .quoted kind => s.quoted g kind bytes contents
  | .substitution =>
    { s with segments := [part .substitution bytes contents] :: s.segments }
  | .braces | .markup => s.operand (part .other bytes contents)

end State

/-! ### The whole -/

mutual

/-- Read one piece, with those after it in sight. -/
def readPiece (g : Grammar) (s : State) (next : List Piece) : Piece → State
  | .leaf t => if s.skip = 0 then s.token g t next else { s with skip := s.skip - 1 }
  | .group b bytes pieces =>
    if s.skip = 0 then
      s.group g b bytes (readAll g (s.inside g b next) pieces).result next
    else { s with skip := s.skip - 1 }

/-- Read pieces from left to right. -/
def readAll (g : Grammar) (s : State) : List Piece → State
  | [] => s
  | p :: ps => readAll g (readPiece g s ps p) ps

end

/-- The outline of the pieces of a text of `stop` bytes. -/
def outlineOf (g : Grammar) (stop : Nat) (pieces : List Piece) : Outline :=
  State.part .other ⟨0, stop⟩ (readAll g (.initial true .nowhere) pieces).result.flatten

end Concord.Source
