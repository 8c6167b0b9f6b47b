import EntityCatalog.Cache.Basic
import EntityCatalog.Error
import EntityCatalog.IdSource
import EntityCatalog.Layout

/-!
# The registry of names

The registry binds names to surrogate ids. Each binding is a pair of rows: the name row holds
the id, and the id row holds the name. An id row is written once and stays, so an id is never
given out again; renaming rewrites the name rows and the name that the id row holds.

A cache of bindings stands in front of the name rows. Every operation answers with the registry
after it, also when it fails.
-/

namespace EntityCatalog

/-- The rows, the cached bindings and the source of fresh ids. -/
structure Names where
  rows : Rows
  cache : Cache String UInt64
  ids : IdSource

namespace Names

/-- The number of fresh ids that an allocation tries. -/
def maxAttempts : Nat := 8

/-- Read an id from the bytes of a row. -/
def readId (bytes : Bytes) : Except Error UInt64 :=
  match word? bytes with
  | some id => .ok id
  | none => .error (.corruptValue (.idWidth bytes.length))

/-- The id that the name row of a name holds. -/
def storedId? (rows : Rows) (name : String) : Except Error (Option UInt64) :=
  match rows.get? (Layout.nameKey name) with
  | none => .ok none
  | some bytes => (readId bytes).map some

/-- The name that the id row of an id holds. -/
def storedName? (rows : Rows) (id : UInt64) : Except Error (Option String) :=
  match rows.get? (Layout.idKey id) with
  | none => .ok none
  | some bytes =>
    match Text.ofUtf8? bytes with
    | some name => .ok (some name)
    | none => .error (.corruptValue (.nameNotText id))

/-- Note a binding in the cache. -/
def remember (names : Names) (name : String) (id : UInt64) : Names :=
  { names with cache := names.cache.insert name id }

/-- Drop a name from the cache. -/
def forget (names : Names) (name : String) : Names :=
  { names with cache := names.cache.erase name }

/-- Look a name up in the cache. -/
def lookup (names : Names) (name : String) : Option UInt64 × Names :=
  match names.cache.get name with
  | (found, cache) => (found, { names with cache })

/-- The rows that bind a name to an id, added only if neither of them is there. -/
def binding (name : String) (id : UInt64) : List Change :=
  [.insert (Layout.nameKey name) (wordBytes id), .insert (Layout.idKey id) (Text.utf8 name)]

/-- Bind a name that is not bound to the first free id among the next draws. -/
def allocate (name : String) : (attempts : Nat) → Names → Except Error UInt64 × Names
  | 0, names => (.error (.internal (.idsExhausted name maxAttempts)), names)
  | attempts + 1, names =>
    let id := names.ids.peek
    match names.rows.batch (binding name id) with
    | (true, rows) => (.ok id, { names with rows, ids := names.ids.advance }.remember name id)
    | (false, _) => allocate name attempts { names with ids := names.ids.advance }

/-- The id of a name. A name that is not bound is bound to a fresh id. -/
def resolve (names : Names) (name : String) : Except Error UInt64 × Names :=
  match names.lookup name with
  | (some id, names) => (.ok id, names)
  | (none, names) =>
    match storedId? names.rows name with
    | .error fault => (.error fault, names)
    | .ok (some id) => (.ok id, names.remember name id)
    | .ok none => allocate name maxAttempts names

/-- The id of a name, if it is bound. -/
def find? (names : Names) (name : String) : Except Error (Option UInt64) × Names :=
  match names.lookup name with
  | (some id, names) => (.ok (some id), names)
  | (none, names) =>
    match storedId? names.rows name with
    | .error fault => (.error fault, names)
    | .ok (some id) => (.ok (some id), names.remember name id)
    | .ok none => (.ok none, names)

/-- The changes that move an id from one name to another. -/
def moveChanges (old new : String) (id : UInt64) : List Change :=
  [.erase (Layout.nameKey old), .insert (Layout.nameKey new) (wordBytes id),
   .put (Layout.idKey id) (Text.utf8 new)]

/-- The changes that free a name for a binding. A name that is bound to the id to be replaced
loses its name row; a name that is bound to another id is taken. -/
def freeChanges (new : String) (replaced bound : Option UInt64) : Except Error (List Change) :=
  match bound with
  | none => .ok []
  | some id =>
    if replaced = some id then .ok [.erase (Layout.nameKey new)] else .error (.nameTaken new)

/-- The changes of a rename, after the changes that go along with it. -/
def renameChanges (rows : Rows) (old new : String) (id : UInt64) (replaced : Option UInt64)
    (along : List Change) : Except Error (List Change) :=
  if old = new then .ok along
  else
    match storedId? rows new with
    | .error fault => .error fault
    | .ok bound =>
      (freeChanges new replaced bound).map fun freed => along ++ freed ++ moveChanges old new id

/-- Apply the changes of a rename. Both names leave the cache first. -/
def commitRename (names : Names) (old new : String) (changes : List Change) :
    Except Error Bool × Names :=
  let cleared := (names.forget old).forget new
  match cleared.rows.batch changes with
  | (true, rows) => (.ok true, { cleared with rows })
  | (false, _) => (.error (.nameTaken new), cleared)

/-- Move the id of one name to another in one batch with further changes. The answer is false,
and nothing is written, if the old name is not bound. The new name must be free or bound to the
id to be replaced, which then stays reserved. -/
def renameWith (names : Names) (old new : String) (replaced : Option UInt64)
    (along : List Change) : Except Error Bool × Names :=
  match storedId? names.rows old with
  | .error fault => (.error fault, names)
  | .ok none => (.ok false, names)
  | .ok (some id) =>
    match renameChanges names.rows old new id replaced along with
    | .error fault => (.error fault, names)
    | .ok changes => names.commitRename old new changes

/-- Move the id of one name to another that is free. -/
def rename (names : Names) (old new : String) : Except Error Bool × Names :=
  names.renameWith old new none []

/-- Remove the name row of a name: whether it was bound, and the registry after it. The id row
stays. -/
def unbind (names : Names) (name : String) : Bool × Names :=
  let key := Layout.nameKey name
  (names.rows.contains key, { names.forget name with rows := names.rows.erase key })

/-- The highest id that has an id row. -/
def highestId? (rows : Rows) : Except Error (Option UInt64) :=
  match rows.last? Layout.idStem with
  | none => .ok none
  | some row => (readId (row.1.drop Layout.idStem.length)).map some

/-- Read a name row. -/
def readEntry (row : Row) : Except Error (String × UInt64) :=
  match Text.ofUtf8? (row.1.drop Layout.nameStem.length) with
  | none => .error (.corruptKey .nameNotText)
  | some name => (readId row.2).map fun id => (name, id)

/-- Every bound name with its id, in the byte order of the names. -/
def entries (rows : Rows) : Except Error (List (String × UInt64)) :=
  (rows.scan Layout.nameStem).mapM readEntry

end Names

end EntityCatalog
