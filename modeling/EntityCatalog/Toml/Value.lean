/-!
# Values of a configuration file

A file describes a table of values. Numbers, truth values, dates and times are kept as literals
in one canonical spelling each, because nothing is computed with them.
-/

namespace EntityCatalog.Toml

/-- A value: text, a literal in canonical spelling, an array, or a table with its entries in the
order of their keys. -/
inductive Value where
  | text (text : String)
  | literal (text : String)
  | array (items : List Value)
  | table (entries : List (String × Value))
deriving Repr

/-- Put an entry in its place among entries in the order of their keys. -/
def placeEntry {α : Type} (entry : String × α) : List (String × α) → List (String × α)
  | [] => [entry]
  | head :: rest =>
    if entry.1 < head.1 then entry :: head :: rest else head :: placeEntry entry rest

/-- The entries in the order of their keys. -/
def sortEntries {α : Type} : List (String × α) → List (String × α)
  | [] => []
  | entry :: rest => placeEntry entry (sortEntries rest)

end EntityCatalog.Toml
