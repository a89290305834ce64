import Concord.Repeats
import Concord.Source.CallSite
import Concord.Source.Reader
import Concord.Source.Search
import Concord.Text.LineIndex

/-!
# Finding calls of localization functions

A call counts if its callee is a plain name, or an access to a member of that name, nothing on the
way to its receiver is a subscript, and its first argument is one fixed, non-empty string literal.

* `siteOf?` – the call site at a node, if it counts;
* `sitesIn` – the call sites of a tree, by location and without repetitions;
* `extract` – the call sites of a text.
-/

namespace Concord.Source

/-- The call site at a node. -/
def siteOf? (language : CodeLanguage) (file : String) (source : List Char)
    (functions : List String) (t : Tree) : Option CallSite := do
  let callee ← (callPattern language).callee? t
  let literal ← (callPattern language).key? t
  let name ← (classify source callee).name?
  guard (!throughSubscript t)
  guard (functions.contains (String.ofList name))
  let rules ← literalRules? language source literal
  let parsed ← Literal.parse? (literal.text source) rules
  guard (!parsed.key.isEmpty)
  let base := literal.bytes.start
  return {
    key := String.ofList parsed.key
    location :=
      ⟨file, Text.rangeOf source (base + parsed.innerStart) (base + parsed.innerStop)⟩
    literalRange := Text.rangeOf source literal.bytes.start literal.bytes.stop
    callRange := Text.rangeOf source t.bytes.start t.bytes.stop
    style := parsed.style }

/-- The call sites of a tree, by location. -/
def sitesIn (language : CodeLanguage) (file : String) (source : List Char)
    (functions : List String) (tree : Tree) : List CallSite :=
  let found := tree.subtrees.filterMap (siteOf? language file source functions)
  dropRepeats CallSite.location (found.mergeSort fun a b => (compare a.location b.location).isLE)

/-- The call sites of a text. Without functions to look for, or without a tree, there are none. -/
def extract (reader : Reader) (language : CodeLanguage) (file : String) (source : List Char)
    (functions : List String) : List CallSite :=
  if functions.isEmpty then []
  else match reader language source with
    | none => []
    | some tree => sitesIn language file source functions tree

end Concord.Source
