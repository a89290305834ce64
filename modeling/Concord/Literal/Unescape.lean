import Concord.Literal.Basic

/-!
# From the inside of a literal to its key

With backslash escapes, `\n`, `\r`, `\t` and `\0` are control characters, a backslash or a quote
or a dollar sign stands for itself, a line break is dropped, and `\x`, `\u` and `\u` with braces
give a character by its number. Anything else keeps its backslash. An escape by number that gives
no character keeps its backslash and letter too, and its digits without braces.
-/

namespace Concord.Literal

/-- The value of a hexadecimal digit. -/
def hexValue? (c : Char) : Option Nat :=
  if '0' ≤ c ∧ c ≤ '9' then some (c.toNat - '0'.toNat)
  else if 'a' ≤ c ∧ c ≤ 'f' then some (c.toNat - 'a'.toNat + 10)
  else if 'A' ≤ c ∧ c ≤ 'F' then some (c.toNat - 'A'.toNat + 10)
  else none

/-- The number that hexadecimal digits spell, the digits read so far having spelled `acc`. -/
def hexFrom (acc : Nat) : List Char → Option Nat
  | [] => some acc
  | c :: cs => (hexValue? c).bind fun d => hexFrom (16 * acc + d) cs

/-- The number that one or more hexadecimal digits spell; a plus sign may come first. -/
def hexNumber? : List Char → Option Nat
  | [] => none
  | ['+'] => none
  | '+' :: cs => hexFrom 0 cs
  | cs => hexFrom 0 cs

/-- The character with a given number: surrogates are no characters. -/
def charOfNumber? (n : Nat) : Option Char :=
  if h : n.isValidChar then some (Char.ofNatAux n h) else none

/-- The character that hexadecimal digits spell the number of. -/
def charOfHex? (digits : List Char) : Option Char := (hexNumber? digits).bind charOfNumber?

/-- At most `n` hexadecimal digits, and what follows them. -/
def takeHex : Nat → List Char → List Char × List Char
  | 0, cs => ([], cs)
  | _ + 1, [] => ([], [])
  | n + 1, c :: cs =>
    if (hexValue? c).isSome then
      let r := takeHex n cs
      (c :: r.1, r.2)
    else ([], c :: cs)

/-- The text up to a closing brace, and what follows the brace. -/
def takeBraced : List Char → List Char × List Char
  | [] => ([], [])
  | '}' :: cs => ([], cs)
  | c :: cs =>
    let r := takeBraced cs
    (c :: r.1, r.2)

theorem length_takeHex_le (n : Nat) (cs : List Char) : (takeHex n cs).2.length ≤ cs.length := by
  induction cs generalizing n with
  | nil => cases n <;> simp [takeHex]
  | cons c cs ih =>
    cases n with
    | zero => simp [takeHex]
    | succ n =>
      simp only [takeHex]
      split
      · exact Nat.le_succ_of_le (ih n)
      · exact Nat.le_refl _

theorem length_takeBraced_le (cs : List Char) : (takeBraced cs).2.length ≤ cs.length := by
  fun_induction takeBraced cs with
  | case1 => simp
  | case2 => simp
  | case3 c cs _ r ih => exact Nat.le_succ_of_le ih

/-- What an escape by number comes to: the character, or the escape without its braces. -/
def numbered (letter : Char) (digits : List Char) : Option Char → List Char
  | some c => [c]
  | none => '\\' :: letter :: digits

/-- What a backslash begins: the characters it gives, and what follows the escape. -/
def escapeSequence : List Char → List Char × List Char
  | [] => (['\\'], [])
  | 'n' :: cs => (['\n'], cs)
  | 'r' :: cs => (['\r'], cs)
  | 't' :: cs => (['\t'], cs)
  | '0' :: cs => (['\x00'], cs)
  | '\n' :: cs => ([], cs)
  | '\r' :: '\n' :: cs => ([], cs)
  | '\r' :: cs => ([], cs)
  | 'u' :: '{' :: cs =>
    let r := takeBraced cs
    (numbered 'u' r.1 (charOfHex? r.1), r.2)
  | 'u' :: cs =>
    let r := takeHex 4 cs
    (numbered 'u' r.1 (charOfHex? r.1), r.2)
  | 'x' :: cs =>
    let r := takeHex 2 cs
    (numbered 'x' r.1 (if r.1.length = 2 then charOfHex? r.1 else none), r.2)
  | c :: cs =>
    if c = '\\' ∨ c = '\'' ∨ c = '"' ∨ c = '\x60' ∨ c = '$' then ([c], cs) else (['\\', c], cs)

theorem length_escapeSequence_le (cs : List Char) :
    (escapeSequence cs).2.length ≤ cs.length := by
  fun_cases escapeSequence cs <;> simp only [List.length_nil, List.length_cons] <;>
    first
    | omega
    | exact Nat.le_trans (length_takeBraced_le _) (by omega)
    | exact Nat.le_trans (length_takeHex_le _ _) (by omega)

/-- Read backslash escapes. -/
def unescapeBackslash : List Char → List Char
  | [] => []
  | c :: cs =>
    if c = '\\' then
      let r := escapeSequence cs
      r.1 ++ unescapeBackslash r.2
    else c :: unescapeBackslash cs
termination_by cs => cs.length
decreasing_by
  · exact Nat.lt_succ_of_le (length_escapeSequence_le cs)
  · simp

/-- Read doubled quotes. -/
def unescapeDoubled : List Char → List Char
  | '"' :: '"' :: cs => '"' :: unescapeDoubled cs
  | c :: cs => c :: unescapeDoubled cs
  | [] => []

/-- The key that the inside of a literal stands for. -/
def unescape (inner : List Char) : EscapeStyle → List Char
  | .raw => inner
  | .doubledQuote => unescapeDoubled inner
  | .backslash => unescapeBackslash inner

end Concord.Literal
