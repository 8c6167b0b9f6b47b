import EntityCatalog.Catalog.Update
import EntityCatalog.Config.Basic
import EntityCatalog.Config.StoreOptions
import EntityCatalog.Place

/-!
# Opening a catalog

A catalog is opened from its configuration: the fields and the options are checked, the rows are
opened, and the generator of versions is started. Leaving a catalog stops the generator, and
what remains is the rows.
-/

namespace EntityCatalog

/-- A registry over the rows with an empty cache. -/
def Names.create (config : Config) (rows : Rows) (ids : IdSource) : Names :=
  ⟨rows, .create config.cacheCapacity.toNat config.idle, ids⟩

namespace Catalog

/-- A catalog over the rows whose generator has not been started. -/
def create (config : Config) (rows : Rows) (ids : IdSource) (clock : Clock) : Catalog :=
  ⟨.create config rows ids, .create config.timing, clock, 0⟩

/-- Open the catalog that a configuration describes. The system may refuse the thread of its
generator. -/
def openAt (config : Config) (place : Place) (ids : IdSource) (clock : Clock)
    (refusal : Option String) : Except Error Catalog := do
  config.validate
  let _ ← StoreOptions.ofSettings config.options
  let rows ← place.openStore config.directory
  match (create config rows ids clock).start refusal with
  | (.ok (), catalog) => .ok catalog
  | (.error fault, _) => .error fault

/-- Leave a catalog: the rows that remain. -/
def leave (catalog : Catalog) : Rows := (catalog.versions.discard catalog.marks).rows

end Catalog

end EntityCatalog
