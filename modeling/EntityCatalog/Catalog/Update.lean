import EntityCatalog.Catalog.Basic

/-!
# Updates and renames

An update reads an entity, lets a change compute its new payload and perhaps a new name, and
writes the result with a fresh version. A rename moves the binding of the name in the same batch
as the write. The new name may still be bound to an entity that was deleted; that binding is
given up, but only if nothing is stored beneath it.
-/

namespace EntityCatalog

/-- The move of a binding that goes with an update. -/
structure Move where
  old : String
  new : String
  replaced : Option UInt64
deriving DecidableEq, Repr

namespace Catalog

/-- The id of a leftover binding that a rename to the given address replaces. -/
def leftover (catalog : Catalog) (target : Address) (name : String) :
    Except Error (Option UInt64) × Catalog :=
  match catalog.onNames target.findKey with
  | (.error fault, catalog) => (.error fault, catalog)
  | (.ok none, catalog) => (.ok none, catalog)
  | (.ok (some key), catalog) =>
    if hasBeneath catalog.rows key.encode target.kind then
      (.error (.nameTaken target.path.text), catalog)
    else catalog.onNames (·.find? name)

/-- The scoped names between which a binding moves, and the leftover binding of the second. -/
def moveBetween (catalog : Catalog) (address target : Address) : Except Error Move × Catalog :=
  match catalog.onNames address.findName with
  | (.error fault, catalog) => (.error fault, catalog)
  | (.ok old, catalog) =>
    match catalog.onNames target.findName with
    | (.error fault, catalog) => (.error fault, catalog)
    | (.ok new, catalog) =>
      match old, new with
      | some old, some new =>
        match catalog.leftover target new with
        | (.error fault, catalog) => (.error fault, catalog)
        | (.ok replaced, catalog) => (.ok ⟨old, new, replaced⟩, catalog)
      | _, _ => (.error (.noSuchEntity address.path), catalog)

/-- Plan the rename of the entity at an address. -/
def planMove (catalog : Catalog) (address : Address) (name : String) :
    Except Error Move × Catalog :=
  let target : Address := ⟨address.path.withName name, address.kind⟩
  if !Address.isConcrete name then (.error (.invalidArgument (.badName name)), catalog)
  else
    match catalog.contains target with
    | (.error fault, catalog) => (.error fault, catalog)
    | (.ok true, catalog) => (.error (.entityExists target.path), catalog)
    | (.ok false, catalog) => catalog.moveBetween address target

/-- Plan the rename that an update asks for, if it asks for one. -/
def planUpdate (catalog : Catalog) (address : Address) (update : Update) :
    Except Error (Option Move) × Catalog :=
  match update.newName with
  | none => (.ok none, catalog)
  | some name =>
    if name = address.path.leaf then (.ok none, catalog)
    else
      match catalog.planMove address name with
      | (answer, catalog) => (answer.map some, catalog)

/-- Write the new record of an entity together with its planned rename. -/
def commitUpdate (catalog : Catalog) (address : Address) (key : Bytes) (record : Record)
    (move : Option Move) : Except Error Record × Catalog :=
  let write : Change := .put key record.encode
  match move with
  | none => (.ok record, catalog.withRows (catalog.rows.batch [write]).2)
  | some move =>
    match catalog.onNames (·.renameWith move.old move.new move.replaced [write]) with
    | (.error fault, catalog) => (.error fault, catalog)
    | (.ok true, catalog) => (.ok record, catalog)
    | (.ok false, catalog) => (.error (.noSuchEntity address.path), catalog)

/-- Rewrite the entity at an address: the record after the change. -/
def update (catalog : Catalog) (address : Address) (change : Record → Except Error Update) :
    Except Error Record × Catalog :=
  match single address.path with
  | .error fault => (.error fault, catalog)
  | .ok () =>
    match catalog.load address with
    | (.error fault, catalog) => (.error fault, catalog)
    | (.ok none, catalog) => (.error (.noSuchEntity address.path), catalog)
    | (.ok (some (key, current)), catalog) =>
      match change current with
      | .error fault => (.error fault, catalog)
      | .ok update =>
        match catalog.planUpdate address update with
        | (.error fault, catalog) => (.error fault, catalog)
        | (.ok move, catalog) =>
          match catalog.nextVersion with
          | (.error fault, catalog) => (.error fault, catalog)
          | (.ok version, catalog) =>
            catalog.commitUpdate address key ⟨version, update.payload⟩ move

end Catalog

end EntityCatalog
