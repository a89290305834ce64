/-!
# Paths

A path is read as its parts: empty segments and interior `.` segments do not count, so
`/p//src/./a` and `/p/src/a` have the same parts. Containment compares whole parts, never text:
`/p/srcx` is not under `/p/src`.

* `Path.parts`, `Path.render` – a path as parts and back;
* `Path.isUnder` – containment;
* `Path.join`, `Path.parent?`, `Path.relativeTo?` – paths made from paths, as they are written;
* `Path.stem?`, `Path.extension?` – the two halves of the last name, divided at its last dot.
-/

namespace Concord.Path

/-- One part of a path. -/
inductive Part where
  | root
  | current
  | parent
  | name (s : String)
deriving DecidableEq, Repr

/-- Divide at every occurrence of a character. -/
def splitAt (sep : Char) : List Char → List (List Char)
  | [] => [[]]
  | c :: cs =>
    if c = sep then [] :: splitAt sep cs
    else match splitAt sep cs with
      | [] => [[c]]
      | piece :: rest => (c :: piece) :: rest

/-- Divide at the last occurrence of a character. -/
def splitLast? (sep : Char) : List Char → Option (List Char × List Char)
  | [] => none
  | c :: cs =>
    match splitLast? sep cs with
    | some (before, after) => some (c :: before, after)
    | none => if c = sep then some ([], cs) else none

/-- Whether a segment counts as no part. -/
def isFiller (segment : List Char) : Bool := segment = [] || segment = ['.']

/-- The part that a segment other than the first stands for. -/
def partOf? (segment : List Char) : Option Part :=
  if isFiller segment then none
  else if segment = ['.', '.'] then some .parent
  else some (.name (String.ofList segment))

/-- What a path starts from – the root, a leading `.` or nothing – and the segments after it. -/
def anchored (p : String) : Option Part × List (List Char) :=
  match splitAt '/' p.toList with
  | [] => (none, [])
  | first :: rest =>
    if p.toList.head? = some '/' then (some .root, rest)
    else if first = ['.'] then (some .current, rest)
    else (none, first :: rest)

/-- The parts of a path. A leading `.` of a relative path counts. -/
def parts (p : String) : List Part :=
  let (anchor, segments) := anchored p
  anchor.toList ++ segments.filterMap partOf?

/-- A part as text; the root is empty, as the slash before the next part shows it. -/
def Part.render : Part → String
  | root => ""
  | current => "."
  | parent => ".."
  | name s => s

/-- The path with the given parts. -/
def render (ps : List Part) : String :=
  if ps = [.root] then "/" else "/".intercalate (ps.map Part.render)

/-- The path with empty and interior `.` segments left out. -/
def normalize (p : String) : String := render (parts p)

/-- Whether a path is at or below a directory. -/
def isUnder (p dir : String) : Bool := (parts dir).isPrefixOf (parts p)

/-- A path inside a directory; an absolute path stays as it is. -/
def join (dir p : String) : String :=
  if p.toList.head? = some '/' then p
  else if dir = "" ∨ dir.toList.getLast? = some '/' then dir ++ p
  else dir ++ "/" ++ p

/-- The last name of a path, if its last part is one. -/
def fileName? (p : String) : Option String :=
  match (parts p).getLast? with
  | some (.name s) => some s
  | _ => none

/-- Segments without those at the end that count as no part. -/
def trimFillers (segments : List (List Char)) : List (List Char) :=
  (segments.reverse.dropWhile isFiller).reverse

/-- The path that starts from an anchor and goes on with some segments. -/
def fromAnchor (anchor : Option Part) (segments : List (List Char)) : String :=
  let tail := String.ofList (['/'].intercalate segments)
  match anchor with
  | some .root => "/" ++ tail
  | some part => if segments.isEmpty then part.render else part.render ++ "/" ++ tail
  | none => tail

/-- The path without its last part, otherwise as it is written; nothing for the root and for the
empty path. -/
def parent? (p : String) : Option String :=
  let (anchor, segments) := anchored p
  let counted := trimFillers segments
  if counted.isEmpty then if anchor = some .current then some "" else none
  else some (fromAnchor anchor (trimFillers counted.dropLast))

/-- The last name without its extension. A name that starts with its only dot has none. -/
def stem? (p : String) : Option String :=
  (fileName? p).map fun name =>
    match splitLast? '.' name.toList with
    | some (c :: before, _) => String.ofList (c :: before)
    | _ => name

/-- What follows the last dot of the last name, if something precedes it. -/
def extension? (p : String) : Option String :=
  (fileName? p).bind fun name =>
    match splitLast? '.' name.toList with
    | some (_ :: _, after) => some (String.ofList after)
    | _ => none

/-- A sibling of a path, with another last name. A path without a last name gets one. -/
def sibling (p name : String) : String :=
  match fileName? p, parent? p with
  | some _, some dir => join dir name
  | _, _ => join p name

/-- What follows the segments of the first `n` parts. -/
def dropSegments : Nat → List (List Char) → List (List Char)
  | _, [] => []
  | 0, segments => segments
  | n + 1, s :: segments =>
    if isFiller s then dropSegments (n + 1) segments else dropSegments n segments

/-- The text of a path below a directory that contains it. Only the empty directory leaves the
beginning of the path as it is. -/
def relativeTo? (p dir : String) : Option String :=
  let (anchor, segments) := anchored p
  if !isUnder p dir then none
  else if parts dir = [] then some (fromAnchor anchor (trimFillers segments))
  else
    let named := (parts dir).filter fun q => q != .root && q != .current
    let rest := (dropSegments named.length segments).dropWhile isFiller
    some (fromAnchor none (trimFillers rest))

end Concord.Path
