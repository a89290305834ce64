import Concord.Diagnostic

/-!
# Catalogs

A catalog maps keys to values: what they stand for in a language. A catalog file contributes exactly
one language, but the type holds several, so that whatever is known about a set of languages can be
compared with the calls in code.
-/

namespace Concord

/-- What a key stands for in a language. Its location runs from the opening quote of the key to the
closing quote of the key's last line. -/
structure CatalogEntry where
  value : String
  location : Location
deriving DecidableEq, Repr, Inhabited

/-- The entries of one language, by key. -/
abbrev LanguageEntries := Dict CatalogEntry

/-- What was read from a catalog file. An unsuccessful reading still has the entries that could be
read. -/
structure Catalog where
  languages : Dict LanguageEntries
  diagnostics : List Diagnostic
  success : Bool
deriving DecidableEq, Inhabited

/-- A key of a catalog with its language and its entry. -/
structure CatalogItem where
  language : String
  key : String
  entry : CatalogEntry
deriving DecidableEq, Repr, Inhabited

namespace Catalog

/-- All entries, ordered by language and then by key. -/
def items (c : Catalog) : List CatalogItem :=
  c.languages.entries.flatMap fun l => l.2.entries.map fun e => ⟨l.1, e.1, e.2⟩

/-- The number of entries of all languages. -/
def entryCount (c : Catalog) : Nat := (c.languages.values.map Dict.size).foldl (· + ·) 0

end Catalog

end Concord
