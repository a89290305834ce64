import Concord.Catalog.Quoted
import Concord.Edit.Basic
import Concord.Consistency
import Concord.Literal.Escape

/-!
# Renaming a key

A rename replaces the inside of every literal that holds the old key, in the style it was written
in. Where the new key cannot be written in that style, the whole literal becomes a double-quoted
one. In catalogs the key is replaced with its quotes.

* `RenameError` – why a key cannot be renamed;
* `planRename` – the edits of a rename.
-/

namespace Concord

/-- Why a key cannot be renamed. -/
inductive RenameError where
  | conflict (old new : String)
  | emptyName
deriving DecidableEq, Repr, Inhabited

/-- The wording of a refusal. -/
def RenameError.message : RenameError → String
  | conflict old new => s!"cannot rename '{old}' to '{new}': key '{new}' already exists"
  | emptyName => "new key name must not be empty"

namespace Rename

/-- The edit of a call site. -/
def siteEdit (new : String) (s : CallSite) : Range × String :=
  let inner := if s.isolated then Literal.escape? new.toList s.style else none
  match inner with
  | some text => (s.location.range, String.ofList text)
  | none => (s.literalRange, String.ofList (Literal.doubleQuoted new.toList))

/-- The key as it is written in a catalog. -/
def catalogText (new : String) : String := String.ofList (Catalog.Quoted.quote new.toList)

end Rename

/-- The edits that rename a key, given call sites of any keys, the locations of the old key in
catalogs, and the keys that exist. A key renamed to itself needs no edit. -/
def planRename (old new : String) (sites : List CallSite) (locations : List Location)
    (existing : TextSet) : Except RenameError EditSet :=
  if new = "" then .error .emptyName
  else if new = old then .ok .empty
  else if existing.contains new then .error (.conflict old new)
  else
    let inCode := (sites.filter fun s => s.key = old).foldl
      (fun edits s =>
        let e := Rename.siteEdit new s
        edits.push s.location.file e.1 e.2) EditSet.empty
    .ok <| locations.foldl
      (fun edits l => edits.push l.file l.range (Rename.catalogText new)) inCode

end Concord
