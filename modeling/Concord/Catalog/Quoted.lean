/-!
# Quoted strings of a catalog

A catalog writes a text between double quotes. Inside, backslash, double quote, line feed,
carriage return and tab are escaped; reading also leaves any other escape as it stands.

* `escape` – the inside of a quoted string;
* `unescape?` – reads the inside back, refusing a bare quote and a backslash at the end
  (`unescape?_escape`);
* `quote`, `unquote?` – the same with the quotes around it (`unquote?_quote`).
-/

namespace Concord.Catalog.Quoted

/-- How one character is written. -/
def escapeChar : Char → List Char
  | '\\' => ['\\', '\\']
  | '"' => ['\\', '"']
  | '\n' => ['\\', 'n']
  | '\r' => ['\\', 'r']
  | '\t' => ['\\', 't']
  | c => [c]

/-- How a text is written between quotes. -/
def escape (s : List Char) : List Char := s.flatMap escapeChar

/-- What a backslash and the character after it stand for. -/
def unescapeChar : Char → List Char
  | 'n' => ['\n']
  | 'r' => ['\r']
  | 't' => ['\t']
  | '"' => ['"']
  | '\\' => ['\\']
  | c => ['\\', c]

/-- Read the inside of a quoted string. -/
def unescape? : List Char → Option (List Char)
  | [] => some []
  | '"' :: _ => none
  | '\\' :: c :: rest => (unescape? rest).map (unescapeChar c ++ ·)
  | ['\\'] => none
  | c :: rest => (unescape? rest).map (c :: ·)

/-- A text between quotes. -/
def quote (s : List Char) : List Char := '"' :: escape s ++ ['"']

/-- The text between the first and the last character, when both are quotes and they differ. -/
def inside? : List Char → Option (List Char)
  | '"' :: rest => if rest.getLast? = some '"' then some rest.dropLast else none
  | _ => none

/-- Read exactly one quoted string. -/
def unquote? (quoted : List Char) : Option (List Char) := (inside? quoted).bind unescape?

theorem unescape?_escape (s : List Char) : unescape? (escape s) = some s := by
  induction s with
  | nil => rfl
  | cons c cs ih =>
    rw [show escape (c :: cs) = escapeChar c ++ escape cs from rfl]
    by_cases h₁ : c = '\\'
    · subst h₁; simp [escapeChar, unescape?, unescapeChar, ih]
    by_cases h₂ : c = '"'
    · subst h₂; simp [escapeChar, unescape?, unescapeChar, ih]
    by_cases h₃ : c = '\n'
    · subst h₃; simp [escapeChar, unescape?, unescapeChar, ih]
    by_cases h₄ : c = '\r'
    · subst h₄; simp [escapeChar, unescape?, unescapeChar, ih]
    by_cases h₅ : c = '\t'
    · subst h₅; simp [escapeChar, unescape?, unescapeChar, ih]
    have hc : escapeChar c = [c] := by
      unfold escapeChar
      split <;> first | contradiction | rfl
    rw [hc, List.singleton_append, unescape?]
    · simp [ih]
    all_goals simp_all

theorem inside?_quote (s : List Char) : inside? (quote s) = some (escape s) := by
  simp [quote, inside?]

/-- What is written is read back. -/
theorem unquote?_quote (s : List Char) : unquote? (quote s) = some s := by
  simp [unquote?, inside?_quote, unescape?_escape]

end Concord.Catalog.Quoted
