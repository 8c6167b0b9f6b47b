import EntityCatalog.Rows.Batch
import EntityCatalog.Bytes.Word
import EntityCatalog.Text.Utf8

/-!
# Layout of the rows

The rows of a catalog are of four families. Entity rows have keys that start with the code of a
kind and a separator. The other three keep the books:

* a name row, `name_` and the name, holds the id bound to the name;
* an id row, `id_` and the eight bytes of the id, holds the name the id was given to;
* the mark row, `last_timestamp`, holds the highest transaction id made durable.
-/

namespace EntityCatalog.Layout

/-- The stem of the name rows, `name_`. -/
def nameStem : Bytes := [0x6e, 0x61, 0x6d, 0x65, 0x5f]

/-- The stem of the id rows, `id_`. -/
def idStem : Bytes := [0x69, 0x64, 0x5f]

/-- The key of the mark row, `last_timestamp`. -/
def markKey : Bytes :=
  [0x6c, 0x61, 0x73, 0x74, 0x5f, 0x74, 0x69, 0x6d, 0x65, 0x73, 0x74, 0x61, 0x6d, 0x70]

/-- The key of the row that holds the id of a name. -/
def nameKey (name : String) : Bytes := nameStem ++ Text.utf8 name

/-- The key of the row that holds the name of an id. -/
def idKey (id : UInt64) : Bytes := idStem ++ wordBytes id

/-- The file that holds the rows, inside the directory of a store. -/
def fileName : String := "entities.redb"

end EntityCatalog.Layout
