import EntityCatalog.Address
import EntityCatalog.Record
import EntityCatalog.TransactionIds.Basic

/-!
# The catalog

A catalog holds entities: payloads at addresses, each stamped with the transaction id of the
write that stored it. Entities are stored under the keys of their addresses. A rename moves the
binding of a name and keeps every key, and with it everything beneath the entity.

Every operation answers with the catalog after it, also when it fails, because even a failed
operation may have used the cache, drawn ids or read the clock.
-/

namespace EntityCatalog

/-- The registry over the rows, the generator of versions with its clock, and how many writes of
the durable mark will fail. -/
structure Catalog where
  names : Names
  versions : TransactionIds
  clock : Clock
  refusals : Nat

/-- What a change makes of an entity. -/
structure Update where
  newName : Option String
  payload : Bytes
deriving DecidableEq, Repr

namespace Catalog

/-- The rows of a catalog. -/
def rows (catalog : Catalog) : Rows := catalog.names.rows

/-- The catalog with other rows. -/
def withRows (catalog : Catalog) (rows : Rows) : Catalog :=
  { catalog with names := { catalog.names with rows } }

/-- Where a catalog keeps its durable mark. -/
def marks (catalog : Catalog) : MarkStore := ⟨catalog.rows, catalog.refusals⟩

/-- Run an operation on the registry alone. -/
def onNames {α : Type} (catalog : Catalog) (operation : Names → α × Names) : α × Catalog :=
  match operation catalog.names with
  | (answer, names) => (answer, { catalog with names })

/-- Draw the version of a write. -/
def nextVersion (catalog : Catalog) : Except Error UInt64 × Catalog :=
  match catalog.versions.next catalog.clock with
  | (answer, versions, clock) => (answer, { catalog with versions, clock })

/-- Refuse a path that stands for many entities. -/
def single (path : Path) : Except Error Unit :=
  if path.isWildcard then .error (.invalidArgument (.manyEntities path)) else .ok ()

/-- Start giving versions, unless the system refuses the flusher its thread. -/
def start (catalog : Catalog) (refusal : Option String) : Except Error Unit × Catalog :=
  match catalog.versions.start catalog.rows catalog.clock refusal with
  | (answer, versions, clock) => (answer, { catalog with versions, clock })

/-- Stop giving versions and make the last one durable. -/
def close (catalog : Catalog) : Except Error Unit × Catalog :=
  match catalog.versions.stop catalog.marks with
  | (answer, versions, store) =>
    (answer, { catalog.withRows store.rows with versions, refusals := store.refusals })

/-- The key and the record at an address, if there is an entity. -/
def load (catalog : Catalog) (address : Address) :
    Except Error (Option (Bytes × Record)) × Catalog :=
  match catalog.onNames address.findKey with
  | (.error fault, catalog) => (.error fault, catalog)
  | (.ok none, catalog) => (.ok none, catalog)
  | (.ok (some key), catalog) =>
    match catalog.rows.get? key.encode with
    | none => (.ok none, catalog)
    | some bytes => ((Record.read bytes).map fun record => some (key.encode, record), catalog)

/-- Store a record under a key, over the record stored there only if that is allowed. -/
def store (catalog : Catalog) (address : Address) (key : Bytes) (record : Record)
    (overwrite : Bool) : Except Error UInt64 × Catalog :=
  if overwrite then
    (.ok record.version, catalog.withRows (catalog.rows.insert key record.encode))
  else
    match catalog.rows.insertNew key record.encode with
    | (true, rows) => (.ok record.version, catalog.withRows rows)
    | (false, _) => (.error (.entityExists address.path), catalog)

/-- Write an entity: the version of the write. Names on its path that have no id are bound. -/
def put (catalog : Catalog) (address : Address) (payload : Bytes) (overwrite : Bool) :
    Except Error UInt64 × Catalog :=
  match single address.path with
  | .error fault => (.error fault, catalog)
  | .ok () =>
    match catalog.onNames address.resolveKey with
    | (.error fault, catalog) => (.error fault, catalog)
    | (.ok key, catalog) =>
      match catalog.nextVersion with
      | (.error fault, catalog) => (.error fault, catalog)
      | (.ok version, catalog) => catalog.store address key.encode ⟨version, payload⟩ overwrite

/-- The record at an address, if there is an entity. -/
def get? (catalog : Catalog) (address : Address) : Except Error (Option Record) × Catalog :=
  match single address.path with
  | .error fault => (.error fault, catalog)
  | .ok () =>
    match catalog.load address with
    | (answer, catalog) => (answer.map (Option.map Prod.snd), catalog)

/-- The record at an address. -/
def get (catalog : Catalog) (address : Address) : Except Error Record × Catalog :=
  match catalog.get? address with
  | (.error fault, catalog) => (.error fault, catalog)
  | (.ok (some record), catalog) => (.ok record, catalog)
  | (.ok none, catalog) => (.error (.noSuchEntity address.path), catalog)

/-- Whether there is an entity at an address. -/
def contains (catalog : Catalog) (address : Address) : Except Error Bool × Catalog :=
  match catalog.get? address with
  | (answer, catalog) => (answer.map Option.isSome, catalog)

/-- The path and the record of an entity row. -/
def readRow (rows : Rows) (row : Row) : Except Error (Path × Record) :=
  match Address.read rows row.1 with
  | .error fault => .error fault
  | .ok address => (Record.read row.2).map fun record => (address.path, record)

/-- The entities of a kind directly below the levels, in the order of their keys, at most
`limit` of them if there is a limit. -/
def list (catalog : Catalog) (levels : List String) (kind : Kind) (limit : Option Nat) :
    Except Error (List (Path × Record)) × Catalog :=
  match catalog.onNames (Address.findKey ⟨.wildcard levels, kind⟩) with
  | (.error fault, catalog) => (.error fault, catalog)
  | (.ok none, catalog) => (.ok [], catalog)
  | (.ok (some key), catalog) =>
    let below := catalog.rows.scan key.encode
    let shown := match limit with
      | some count => below.take count
      | none => below
    (shown.mapM (readRow catalog.rows), catalog)

/-- Whether a row is stored beneath the entity of the given kind with the given key. -/
def hasBeneath (rows : Rows) (key : Bytes) (kind : Kind) : Bool :=
  kind.descendants.any fun lower => !(rows.scan (Key.stemBeneath key lower)).isEmpty

/-- The changes that remove an entity and everything beneath it. -/
def removal (key : Bytes) (kind : Kind) : List Change :=
  kind.descendants.map (fun lower => .eraseStem (Key.stemBeneath key lower)) ++ [.erase key]

/-- Remove an entity: whether there was one. What lies beneath it is removed with it, and must
be absent unless `cascade` allows that. -/
def delete (catalog : Catalog) (address : Address) (cascade : Bool) :
    Except Error Bool × Catalog :=
  match single address.path with
  | .error fault => (.error fault, catalog)
  | .ok () =>
    match catalog.load address with
    | (.error fault, catalog) => (.error fault, catalog)
    | (.ok none, catalog) => (.ok false, catalog)
    | (.ok (some (key, _)), catalog) =>
      if !cascade && hasBeneath catalog.rows key address.kind then
        (.error (.hasSubEntities address.path), catalog)
      else (.ok true, catalog.withRows (catalog.rows.batch (removal key address.kind)).2)

end Catalog

end EntityCatalog
