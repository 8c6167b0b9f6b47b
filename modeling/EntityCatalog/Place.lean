import EntityCatalog.Error
import EntityCatalog.Layout

/-!
# Places of stores

A store is kept in a directory and is open at most once at a time. Opening a store in a place
where none has been kept starts one without rows.
-/

namespace EntityCatalog

/-- What stands at the directory of a store: nothing yet, a store that is closed or open, something
that keeps the directory from being made, or a file that holds no rows. -/
inductive Place where
  | vacant
  | kept (rows : Rows)
  | inUse
  | refused (reason : String)
  | unreadable

namespace Place

/-- The path of the file with the rows of the store in a directory. -/
def rowsFile (directory : String) : String :=
  if directory = "" || directory.endsWith "/" then directory ++ Layout.fileName
  else directory ++ "/" ++ Layout.fileName

/-- Open the store at a directory: its rows. -/
def openStore (directory : String) : Place → Except Error Rows
  | vacant => .ok .empty
  | kept rows => .ok rows
  | inUse => .error (.alreadyOpen (rowsFile directory))
  | refused reason => .error (.storage reason)
  | unreadable => .error (.storage "the file holds no rows")

end Place

end EntityCatalog
