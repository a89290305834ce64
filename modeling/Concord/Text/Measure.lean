/-!
# Measuring text

A text is a list of characters. Two measures of it matter: the number of bytes of its UTF-8 form,
in which offsets are given, and the number of its UTF-16 code units, in which columns are given,
because that is what editors report.

* `bytes`, `units16` – the two measures, additive over concatenation;
* `takeBytes`, `dropBytes` – cut a text at a byte offset (`takeBytes_append_dropBytes`);
* `slice` – the text between two byte offsets (`slice_bytes_append`);
* `slice?` – the same where both offsets lie between characters (`cutsAt_iff`).
-/

namespace Concord.Text

/-- The number of bytes of the UTF-8 form. -/
def bytes : List Char → Nat
  | [] => 0
  | c :: cs => c.utf8Size + bytes cs

/-- The number of UTF-16 code units of one character: two outside the basic plane. -/
def charUnits16 (c : Char) : Nat := if c.val < 0x10000 then 1 else 2

/-- The number of UTF-16 code units. -/
def units16 : List Char → Nat
  | [] => 0
  | c :: cs => charUnits16 c + units16 cs

/-- The number of UTF-16 code units of a string. -/
def width16 (s : String) : Nat := units16 s.toList

/-- The longest beginning of at most `n` bytes. -/
def takeBytes (n : Nat) : List Char → List Char
  | [] => []
  | c :: cs => if c.utf8Size ≤ n then c :: takeBytes (n - c.utf8Size) cs else []

/-- What follows the longest beginning of at most `n` bytes. -/
def dropBytes (n : Nat) : List Char → List Char
  | [] => []
  | c :: cs => if c.utf8Size ≤ n then dropBytes (n - c.utf8Size) cs else c :: cs

/-- The text from byte `start` to byte `stop`. -/
def slice (start stop : Nat) (text : List Char) : List Char :=
  takeBytes (stop - start) (dropBytes start text)

/-- Whether a text has a beginning of `n` bytes. -/
def cutsAt (n : Nat) (text : List Char) : Bool := bytes (takeBytes n text) = n

/-- The text from byte `start` to byte `stop`, if it can be cut at both and they are in order. -/
def slice? (start stop : Nat) (text : List Char) : Option (List Char) :=
  if start ≤ stop ∧ cutsAt start text ∧ cutsAt stop text then some (slice start stop text)
  else none

@[simp] theorem bytes_nil : bytes [] = 0 := rfl

@[simp] theorem bytes_cons (c : Char) (cs : List Char) :
    bytes (c :: cs) = c.utf8Size + bytes cs := rfl

@[simp] theorem bytes_append (a b : List Char) : bytes (a ++ b) = bytes a + bytes b := by
  induction a with
  | nil => simp
  | cons c cs ih => simp [ih, Nat.add_assoc]

@[simp] theorem units16_nil : units16 [] = 0 := rfl

@[simp] theorem units16_cons (c : Char) (cs : List Char) :
    units16 (c :: cs) = charUnits16 c + units16 cs := rfl

@[simp] theorem units16_append (a b : List Char) : units16 (a ++ b) = units16 a + units16 b := by
  induction a with
  | nil => simp
  | cons c cs ih => simp [ih, Nat.add_assoc]

/-- Cutting loses nothing. -/
theorem takeBytes_append_dropBytes (n : Nat) (cs : List Char) :
    takeBytes n cs ++ dropBytes n cs = cs := by
  induction cs generalizing n with
  | nil => rfl
  | cons c cs ih =>
    simp only [takeBytes, dropBytes]
    split
    · simp [ih]
    · simp

/-- A cut at the end of a beginning is where that beginning ends. -/
theorem takeBytes_bytes_append (a b : List Char) : takeBytes (bytes a) (a ++ b) = a := by
  induction a with
  | nil =>
    cases b with
    | nil => rfl
    | cons c cs => simp [takeBytes, Nat.not_le_of_gt c.utf8Size_pos]
  | cons c cs ih => simp [takeBytes, ih]

theorem dropBytes_bytes_append (a b : List Char) : dropBytes (bytes a) (a ++ b) = b := by
  induction a with
  | nil =>
    cases b with
    | nil => rfl
    | cons c cs => simp [dropBytes, Nat.not_le_of_gt c.utf8Size_pos]
  | cons c cs ih => simp [dropBytes, ih]

/-- A slice between the end of a beginning and that of a longer one is what lies between them. -/
theorem slice_bytes_append (a b c : List Char) :
    slice (bytes a) (bytes a + bytes b) (a ++ (b ++ c)) = b := by
  rw [slice, Nat.add_sub_cancel_left, dropBytes_bytes_append, takeBytes_bytes_append]

theorem cutsAt_iff {n : Nat} {text : List Char} :
    cutsAt n text ↔ ∃ before after, text = before ++ after ∧ bytes before = n := by
  rw [cutsAt, decide_eq_true_eq]
  constructor
  · intro h
    exact ⟨takeBytes n text, dropBytes n text, (takeBytes_append_dropBytes n text).symm, h⟩
  · rintro ⟨before, after, rfl, rfl⟩
    rw [takeBytes_bytes_append]

end Concord.Text
