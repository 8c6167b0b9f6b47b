import EntityCatalog.Error
import EntityCatalog.Bytes.Word

/-!
# Stored records

The value of an entity row holds the version of the write that made it and an opaque payload:
eight bytes of version, eight bytes of payload length, both least significant first, then the
payload. Bytes after the payload are ignored.
-/

namespace EntityCatalog

/-- The payload of an entity with the version of the write that stored it. -/
structure Record where
  version : UInt64
  payload : Bytes
deriving DecidableEq, Repr

namespace Record

/-- The bytes of a stored record. -/
def encode (record : Record) : Bytes :=
  littleEndian wordWidth record.version.toNat ++
    (littleEndian wordWidth record.payload.length ++ record.payload)

/-- Take exactly `count` bytes off the front. -/
def splitFront? (count : Nat) (bytes : Bytes) : Option (Bytes × Bytes) :=
  if count ≤ bytes.length then some (bytes.take count, bytes.drop count) else none

/-- The record at the front of the bytes, if its fields and its payload are all there. -/
def decode? (bytes : Bytes) : Option Record := do
  let (version, bytes) ← splitFront? wordWidth bytes
  let (length, bytes) ← splitFront? wordWidth bytes
  let (payload, _) ← splitFront? (ofLittleEndian length) bytes
  return ⟨UInt64.ofNat (ofLittleEndian version), payload⟩

/-- Read a record, or report that it ends early. -/
def read (bytes : Bytes) : Except Error Record :=
  match decode? bytes with
  | some record => .ok record
  | none => .error (.corruptValue .truncated)

end Record

end EntityCatalog
