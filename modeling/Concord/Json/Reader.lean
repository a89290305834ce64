import Concord.Text.Measure

/-!
# Reading JSON

Values are read straight into the types they are meant for, from the beginning of the text to its
end. So of two faults the one that comes first is reported: a value of the wrong kind before a
missing bracket, or the other way round.

* `Json.Reader` – reads from the beginning of a text and leaves the rest;
* `Json.text`, `Json.natural`, `Json.list`, `Json.optional`, `Json.record` – one kind of value each;
* `Json.skip` – any value;
* `Json.parse` – a whole text.
-/

namespace Concord.Json

/-- What is wrong with a text. -/
inductive Fault where
  /-- It is not JSON. -/
  | malformed
  /-- It is JSON so far, but a value is not of the kind that belongs there. -/
  | mismatched
  /-- It ends before the value does. -/
  | truncated
deriving DecidableEq, Repr, Inhabited

/-- Reads from the beginning of a text and leaves the rest. -/
abbrev Reader := StateT (List Char) (Except Fault)

/-- Take turns until one has a result. A turn that leaves as much as it found would be taken forever
and is refused. -/
def repeatTurns {σ α : Type} (turn : σ → Reader (σ ⊕ α)) (s : σ) (cs : List Char) :
    Except Fault (α × List Char) :=
  match turn s cs with
  | .error fault => .error fault
  | .ok (.inr a, rest) => .ok (a, rest)
  | .ok (.inl s, rest) =>
    if rest.length < cs.length then repeatTurns turn s rest else .error .malformed
termination_by cs.length

/-! ### Characters -/

/-- The characters that may stand between the parts of a value. -/
def isBlank (c : Char) : Bool := c = ' ' || c = '\n' || c = '\t' || c = '\r'

/-- The next character, which stays. -/
def peek? : Reader (Option Char) := return (← get).head?

/-- Pass one character. -/
def pass : Reader Unit := modify List.tail

/-- The next character, or the end as a fault. -/
def next (atEnd : Fault) : Reader Char := do
  match ← peek? with
  | some c => pass; return c
  | none => throw atEnd

/-- The next character that is not blank, which stays. -/
def token? : Reader (Option Char) := do
  modify (·.dropWhile isBlank)
  peek?

/-- Pass the rest of a word. -/
def word (w : String) : Reader Unit :=
  w.toList.forM fun c => do
    if (← next .truncated) ≠ c then throw .malformed

/-! ### Strings -/

/-- The value of a hexadecimal digit. -/
def hexDigit? (c : Char) : Option Nat :=
  if '0' ≤ c && c ≤ '9' then some (c.toNat - '0'.toNat)
  else if 'a' ≤ c && c ≤ 'f' then some (c.toNat - 'a'.toNat + 10)
  else if 'A' ≤ c && c ≤ 'F' then some (c.toNat - 'A'.toNat + 10)
  else none

/-- The number that four hexadecimal digits stand for. What is too short to hold four bytes is
truncated, whatever it holds. -/
def fourHexDigits : Reader Nat := do
  let four := (← get).take 4
  if Text.bytes four < 4 then throw .truncated
  match four.mapM hexDigit? with
  | some digits =>
    modify (·.drop 4)
    return digits.foldl (fun n d => 16 * n + d) 0
  | none => throw .malformed

/-- The characters that a letter after a backslash may stand for. -/
def plainEscapes : List (Char × Char) :=
  [('"', '"'), ('\\', '\\'), ('/', '/'), ('b', '\x08'), ('f', '\x0c'), ('n', '\n'), ('r', '\r'),
   ('t', '\t')]

/-- Whether a number is the first half of a pair that stands for one character. -/
def isLead (n : Nat) : Bool := 0xD800 ≤ n && n ≤ 0xDBFF

/-- Whether a number is the second half of such a pair. -/
def isTrail (n : Nat) : Bool := 0xDC00 ≤ n && n ≤ 0xDFFF

/-- The character that four hexadecimal digits, or two times four, stand for. -/
def numberedChar : Reader Char := do
  let n ← fourHexDigits
  if isTrail n then throw .malformed
  if isLead n then
    word "\\u"
    let m ← fourHexDigits
    if isTrail m then return Char.ofNat ((n - 0xD800) * 0x400 + (m - 0xDC00) + 0x10000)
    else throw .malformed
  else return Char.ofNat n

/-- One turn of reading what precedes the closing quote; `numbered` reads what follows `\u`. -/
def stringTurn (numbered : Reader Char) (read : List Char) :
    Reader (List Char ⊕ String) := do
  let c ← next .truncated
  if c = '"' then return .inr (String.ofList read.reverse)
  else if c = '\\' then
    let letter ← next .truncated
    if letter = 'u' then return .inl ((← numbered) :: read)
    else match plainEscapes.lookup letter with
      | some c => return .inl (c :: read)
      | none => throw .malformed
  else if c < ' ' then throw .malformed
  else return .inl (c :: read)

/-- What precedes the closing quote. -/
def stringBody : Reader String := repeatTurns (stringTurn numberedChar) []

/-- Pass what precedes the closing quote. Halves of pairs may stand alone. -/
def skipString : Reader Unit :=
  discard (repeatTurns (stringTurn (do discard fourHexDigits; return ' ')) [] : Reader String)

/-! ### Numbers -/

/-- A number as it is written: the value of its digits, how many of them there are, and the power of
ten to multiply it with. -/
structure Numeral where
  negative : Bool
  value : Nat
  width : Nat
  exponent : Int
  /-- Whether the number has neither a fraction nor an exponent. -/
  plain : Bool
deriving DecidableEq, Repr

/-- The value of a row of digits. -/
def valueOf (digits : List Char) : Nat :=
  digits.foldl (fun n d => 10 * n + (d.toNat - '0'.toNat)) 0

/-- The digits that come next. -/
def digits : Reader (List Char) := do
  let cs ← get
  set (cs.dropWhile Char.isDigit)
  return cs.takeWhile Char.isDigit

/-- The digits that come next, of which there must be one. -/
def someDigits (atEnd : Fault) : Reader (List Char) := do
  match ← digits with
  | [] => throw (if (← peek?).isNone then atEnd else .malformed)
  | ds => return ds

/-- The digits before the point: a zero stands alone. -/
def wholeDigits (atEnd : Fault) : Reader (List Char) := do
  match ← someDigits atEnd with
  | '0' :: _ :: _ => throw .malformed
  | ds => return ds

/-- The exponent that comes next, if there is one. -/
def exponent? (atEnd : Fault) : Reader (Option Int) := do
  match ← peek? with
  | some 'e' | some 'E' =>
    pass
    let sign ← peek?
    if sign = some '+' || sign = some '-' then pass
    let magnitude := valueOf (← someDigits atEnd)
    return some (if sign = some '-' then -magnitude else magnitude)
  | _ => return none

/-- The number that comes next. A text that ends within it has the fault `atEnd`. -/
def numeral (atEnd : Fault) : Reader Numeral := do
  let negative := (← peek?) = some '-'
  if negative then pass
  let whole ← wholeDigits atEnd
  let point := (← peek?) = some '.'
  let fraction ← if point then do pass; someDigits atEnd else pure []
  let exponent ← exponent? atEnd
  return {
    negative
    value := valueOf (whole ++ fraction)
    width := (whole ++ fraction).length
    exponent := exponent.getD 0 - fraction.length
    plain := !point && exponent.isNone }

namespace Numeral

/-- The least whole number that is too large for a floating-point number of 64 bits: halfway between
the largest of them and the next power of two. -/
def floatLimit : Nat := Nat.pow 2 1024 - Nat.pow 2 970

/-- Whether a number is too large for a floating-point number of 64 bits. -/
def isTooLarge (n : Numeral) : Bool :=
  if n.value = 0 then false
  else if 0 ≤ n.exponent then
    308 < n.exponent || floatLimit ≤ n.value * Nat.pow 10 n.exponent.toNat
  else
    let places := (-n.exponent).toNat
    places < n.width && floatLimit * Nat.pow 10 places ≤ n.value

/-- The natural number of at most 64 bits that is written. -/
def natural? (n : Numeral) : Option Nat :=
  if n.plain && !n.negative && n.value < UInt64.size then some n.value else none

end Numeral

/-- The number that comes next, if it is a natural number of at most 64 bits. A number that is too
large to be any number at all is malformed. -/
def naturalOrNone : Reader (Option Nat) := do
  let n ← numeral .truncated
  match n.natural? with
  | some value => return some value
  | none => if n.isTooLarge then throw .malformed else return none

/-! ### Any value -/

/-- Whether a number begins with a character. -/
def beginsNumber (c : Char) : Bool := c = '-' || c.isDigit

/-- Pass a value that has no parts. -/
def skipScalar : Reader Unit := do
  match ← token? with
  | none => throw .truncated
  | some 'n' => pass; word "ull"
  | some 't' => pass; word "rue"
  | some 'f' => pass; word "alse"
  | some '"' => pass; skipString
  | some c => if beginsNumber c then discard (numeral .malformed) else throw .malformed

/-- Pass the key of a field and its colon. -/
def skipKey : Reader Unit := do
  match ← token? with
  | none => throw .truncated
  | some '"' => pass; skipString
  | some _ => throw .malformed
  match ← token? with
  | none => throw .truncated
  | some ':' => pass
  | some _ => throw .malformed

/-- What closes an open bracket. -/
def closing (bracket : Char) : Char := if bracket = '[' then ']' else '}'

/-- Close the brackets that close after a value, and go on to the next value, if there is one;
`brackets` are open, the innermost first. -/
def afterValue : List Char → Reader (List Char ⊕ Unit)
  | [] => return .inr ()
  | bracket :: outer => do
    match ← token? with
    | none => throw .truncated
    | some c =>
      if c = ',' then
        pass
        if bracket = '{' then skipKey
        return .inl (bracket :: outer)
      else if c = closing bracket then
        pass
        afterValue outer
      else throw .malformed

/-- Pass the beginning of a value, up to the first part of it or to the next value. -/
def skipTurn (brackets : List Char) : Reader (List Char ⊕ Unit) := do
  let c ← token?
  if c = some '[' || c = some '{' then
    let bracket := c.getD '['
    pass
    if (← token?) = some (closing bracket) then
      pass
      afterValue brackets
    else
      if bracket = '{' then skipKey
      return .inl (bracket :: brackets)
  else
    skipScalar
    afterValue brackets

/-- Pass a value. -/
def skip : Reader Unit := repeatTurns skipTurn []

/-! ### Values of one kind -/

/-- Refuse a value of another kind. A value without parts is read first, and a fault in it wins. -/
def refuse {α : Type} : Reader α := do
  match ← token? with
  | none => throw .truncated
  | some 'n' => pass; word "ull"
  | some 't' => pass; word "rue"
  | some 'f' => pass; word "alse"
  | some '"' => pass; discard stringBody
  | some '[' | some '{' => pure ()
  | some c => if beginsNumber c then discard naturalOrNone else throw .malformed
  throw .mismatched

/-- A string. -/
def text : Reader String := do
  if (← token?) = some '"' then
    pass
    stringBody
  else refuse

/-- A natural number of at most 64 bits. -/
def natural : Reader Nat := do
  if (← token?).any beginsNumber then
    match ← naturalOrNone with
    | some n => return n
    | none => throw .mismatched
  else refuse

/-- A value or `null`. -/
def optional {α : Type} (value : Reader α) : Reader (Option α) := do
  if (← token?) = some 'n' then
    pass
    word "ull"
    return none
  else return some (← value)

/-- Whether another part comes before the closing bracket, which stays. -/
def hasMore (bracket : Char) (first : Bool) : Reader Bool := do
  match ← token? with
  | none => throw .truncated
  | some c =>
    if c = closing bracket then return false
    else if first then return true
    else if c ≠ ',' then throw .malformed
    else
      pass
      match ← token? with
      | none => throw .truncated
      | some c => if c = closing bracket then throw .malformed else return true

/-- One turn of reading the parts of a list; `read` are those read so far, the last one first. -/
def listTurn {α : Type} (part : Reader α) (read : List α) : Reader (List α ⊕ List α) := do
  if ← hasMore '[' read.isEmpty then return .inl ((← part) :: read)
  else
    pass
    return .inr read.reverse

/-- A list. -/
def list {α : Type} (part : Reader α) : Reader (List α) := do
  if (← token?) = some '[' then
    pass
    repeatTurns (listTurn part) []
  else refuse

/-! ### Records -/

/-- A field of a record: its name, and how to read its value into the record. -/
structure Field (ρ : Type) where
  name : String
  read : Reader (ρ → ρ)

/-- A field whose value is put into the record by `set`. -/
def Field.of {ρ α : Type} (name : String) (value : Reader α) (set : α → ρ → ρ) : Field ρ :=
  ⟨name, set <$> value⟩

/-- The fields of a record, in order and without their names. Those that are left out stay as they
are. -/
def fieldsInOrder {ρ : Type} : List (Field ρ) → Bool → ρ → Reader ρ
  | [], _, r => do
    match ← token? with
    | none => throw .truncated
    | some ']' => pass; return r
    | some _ => throw .malformed
  | field :: rest, first, r => do
    if ← hasMore '[' first then
      let set ← field.read
      fieldsInOrder rest false (set r)
    else
      pass
      return r

/-- What is read of a record whose fields have names: whether it has any, which known ones it has,
and the record. -/
structure Named (ρ : Type) where
  first : Bool
  seen : List String
  record : ρ

/-- Pass a colon. -/
def colon : Reader Unit := do
  match ← token? with
  | none => throw .truncated
  | some ':' => pass
  | some _ => throw .malformed

/-- One turn of reading the fields of a record. A known field may occur once; any other field is
passed. -/
def fieldTurn {ρ : Type} (fields : List (Field ρ)) (n : Named ρ) : Reader (Named ρ ⊕ ρ) := do
  if ← hasMore '{' n.first then
    if (← token?) ≠ some '"' then throw .malformed
    pass
    let name ← stringBody
    match fields.find? (·.name = name) with
    | some field =>
      if n.seen.contains name then throw .mismatched
      colon
      let set ← field.read
      return .inl ⟨false, name :: n.seen, set n.record⟩
    | none =>
      colon
      skip
      return .inl { n with first := false }
  else
    pass
    return .inr n.record

/-- A record, with its fields by name or in order. Fields that are left out stay as they are in
`start`. -/
def record {ρ : Type} (fields : List (Field ρ)) (start : ρ) : Reader ρ := do
  match ← token? with
  | some '[' => pass; fieldsInOrder fields true start
  | some '{' => pass; repeatTurns (fieldTurn fields) ⟨true, [], start⟩
  | _ => refuse

/-- Read a whole text. -/
def parse {α : Type} (value : Reader α) (s : String) : Except Fault α := do
  let (a, rest) ← value.run s.toList
  if rest.all isBlank then return a else throw .malformed

end Concord.Json
