/-!
# Catalog formats

The formats that catalogs may be written in, with the names used in settings and the extensions of
their files.
-/

namespace Concord

/-- A format of catalog files. -/
inductive CatalogFormat where
  | po
deriving DecidableEq, Repr, Inhabited

namespace CatalogFormat

/-- All formats. -/
def all : List CatalogFormat := [po]

/-- The name of a format in settings. -/
def id : CatalogFormat → String
  | po => "po"

/-- The extension of files in a format, with its dot. -/
def extension : CatalogFormat → String
  | po => ".po"

/-- The format with a name. -/
def ofId? (name : String) : Option CatalogFormat := all.find? fun format => format.id = name

/-- The wording for a name that no format has. -/
def unknownMessage (name : String) : String := s!"Unsupported localization format '{name}'"

end CatalogFormat

end Concord
