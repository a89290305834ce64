/-!
# Glob patterns

A pattern is a row of tokens. `?` stands for one character, `*` for any number of them, a class
such as `[a-z]` or `[!a]` for one character in or outside some ranges, and `**` for any number of
whole path components. Only `**` looks at slashes: for the other tokens they are characters like
any other.

* `Glob.parse` – the tokens of a pattern, or where it is wrong;
* `Glob.accepts` – which texts a pattern stands for.
-/

namespace Concord

/-- What a part of a pattern stands for. -/
inductive GlobToken where
  /-- Itself. -/
  | literal (c : Char)
  /-- Any one character. -/
  | anyChar
  /-- Any number of characters. -/
  | sequence
  /-- Any number of path components. -/
  | components
  /-- One character of some ranges, ends included. -/
  | within (ranges : List (Char × Char))
  /-- One character outside some ranges. -/
  | except (ranges : List (Char × Char))
deriving DecidableEq, Repr, Inhabited

/-- What is wrong with a pattern. -/
inductive GlobFault where
  /-- More than two stars in a row. -/
  | tooManyStars
  /-- Two stars that share their path component with something else. -/
  | partialComponent
  /-- A class that is not closed or has no member. -/
  | badClass
deriving DecidableEq, Repr, Inhabited

/-- The wording of a fault. -/
def GlobFault.message : GlobFault → String
  | tooManyStars => "wildcards are either regular \x60*\x60 or recursive \x60**\x60"
  | partialComponent => "recursive wildcards must form a single path component"
  | badClass => "invalid range pattern"

/-- A fault and the number of characters before it. -/
structure GlobError where
  position : Nat
  fault : GlobFault
deriving DecidableEq, Repr, Inhabited

/-- The wording of an error. -/
def GlobError.message (e : GlobError) : String :=
  s!"Pattern syntax error near position {e.position}: {e.fault.message}"

/-- A parsed pattern. -/
structure Glob where
  tokens : List GlobToken
deriving DecidableEq, Repr, Inhabited

namespace Glob

/-- Whether a text is meant as a pattern: only stars and question marks make it one. -/
def isPattern (s : String) : Bool := s.toList.any fun c => c = '*' || c = '?'

/-! ### Reading a pattern -/

/-- What precedes the first closing bracket, and what follows it. -/
def untilBracket? : List Char → Option (List Char × List Char)
  | [] => none
  | c :: cs =>
    if c = ']' then some ([], cs)
    else (untilBracket? cs).map fun halves => (c :: halves.1, halves.2)

theorem length_of_untilBracket? {cs inner rest : List Char}
    (h : untilBracket? cs = some (inner, rest)) : rest.length < cs.length := by
  induction cs generalizing inner with
  | nil => simp [untilBracket?] at h
  | cons c cs ih =>
    simp only [untilBracket?] at h
    split at h
    · obtain ⟨-, rfl⟩ := Prod.mk.inj (Option.some.inj h)
      simp
    · obtain ⟨⟨i, r⟩, hcs, heq⟩ := Option.map_eq_some_iff.1 h
      obtain ⟨-, rfl⟩ := Prod.mk.inj heq
      exact Nat.lt_succ_of_lt (ih hcs)

/-- The ranges of a class: `x-y` is one, and every other character is one by itself. -/
def ranges : List Char → List (Char × Char)
  | x :: '-' :: y :: rest => (x, y) :: ranges rest
  | x :: rest => (x, x) :: ranges rest
  | [] => []

/-- The class that an opening bracket begins, and what follows it. The first member may be a
closing bracket. -/
def classToken? : List Char → Option (GlobToken × List Char)
  | '!' :: first :: cs =>
    (untilBracket? cs).map fun halves => (.except (ranges (first :: halves.1)), halves.2)
  | '!' :: [] => none
  | first :: cs =>
    (untilBracket? cs).map fun halves => (.within (ranges (first :: halves.1)), halves.2)
  | [] => none

theorem length_of_classToken? {cs rest : List Char} {t : GlobToken}
    (h : classToken? cs = some (t, rest)) : rest.length < cs.length := by
  unfold classToken? at h
  split at h
  · obtain ⟨⟨i, r⟩, hcs, heq⟩ := Option.map_eq_some_iff.1 h
    obtain ⟨-, rfl⟩ := Prod.mk.inj heq
    have := length_of_untilBracket? hcs
    simp only [List.length_cons]
    omega
  · simp at h
  · obtain ⟨⟨i, r⟩, hcs, heq⟩ := Option.map_eq_some_iff.1 h
    obtain ⟨-, rfl⟩ := Prod.mk.inj heq
    have := length_of_untilBracket? hcs
    simp only [List.length_cons]
    omega
  · simp at h

/-- The tokens of the rest of a pattern. `n` characters come before it; `fresh` says that the last
of them, if there is one, is a slash. -/
def scan (n : Nat) (fresh : Bool) : List Char → Except GlobError (List GlobToken)
  | [] => .ok []
  | '?' :: cs => (scan (n + 1) false cs).map (.anyChar :: ·)
  | '*' :: '*' :: '*' :: _ => .error ⟨n + 2, .tooManyStars⟩
  | '*' :: '*' :: cs =>
    -- a slash or nothing on either side
    if fresh then
      match cs with
      | [] => .ok [.components]
      | '/' :: cs => (scan (n + 3) true cs).map (.components :: ·)
      | _ => .error ⟨n + 2, .partialComponent⟩
    else .error ⟨n - 1, .partialComponent⟩
  | '*' :: cs => (scan (n + 1) false cs).map (.sequence :: ·)
  | '[' :: cs =>
    match h : classToken? cs with
    | some (token, rest) =>
      have := length_of_classToken? h
      (scan (n + 1 + cs.length - rest.length) false rest).map (token :: ·)
    | none => .error ⟨n, .badClass⟩
  | c :: cs => (scan (n + 1) (c = '/') cs).map (.literal c :: ·)
termination_by cs => cs.length
decreasing_by all_goals (simp only [List.length_cons]; omega)

/-- The tokens of a pattern. -/
def parse (s : String) : Except GlobError Glob := (scan 0 true s.toList).map Glob.mk

/-! ### What a pattern stands for -/

/-- A list and everything left of it after its first elements are gone. -/
def suffixes {α : Type} : List α → List (List α)
  | [] => [[]]
  | a :: as => (a :: as) :: suffixes as

/-- What follows each slash of a text, and its end. -/
def afterSlashes : List Char → List (List Char)
  | [] => [[]]
  | c :: cs => if c = '/' then cs :: afterSlashes cs else afterSlashes cs

/-- Whether a character lies in one of some ranges. -/
def inRanges (c : Char) (rs : List (Char × Char)) : Bool := rs.any fun r => r.1 ≤ c && c ≤ r.2

/-- Whether tokens stand for a text. -/
def acceptsFrom : List GlobToken → List Char → Bool
  | [], cs => cs.isEmpty
  | .sequence :: ts, cs => (suffixes cs).any fun s => acceptsFrom ts s
  | .components :: ts, cs => (cs :: afterSlashes cs).any fun s => acceptsFrom ts s
  | _ :: _, [] => false
  | .literal c' :: ts, c :: cs => c = c' && acceptsFrom ts cs
  | .anyChar :: ts, _ :: cs => acceptsFrom ts cs
  | .within rs :: ts, c :: cs => inRanges c rs && acceptsFrom ts cs
  | .except rs :: ts, c :: cs => !inRanges c rs && acceptsFrom ts cs

/-- Whether a pattern stands for a text. -/
def accepts (g : Glob) (s : String) : Bool := acceptsFrom g.tokens s.toList

end Glob

end Concord
