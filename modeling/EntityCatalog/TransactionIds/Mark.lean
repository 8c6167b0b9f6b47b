import EntityCatalog.Error
import EntityCatalog.Layout

/-!
# The durable mark

The highest transaction id that was made durable is kept in one row. The store of the mark is
the rows together with the number of coming writes of the mark that the medium will refuse.
-/

namespace EntityCatalog

/-- The rows, and how many writes of the mark will fail before one succeeds. -/
structure MarkStore where
  rows : Rows
  refusals : Nat

namespace MarkStore

/-- The mark in the rows, if there is one. -/
def mark? (rows : Rows) : Except Error (Option UInt64) :=
  match rows.get? Layout.markKey with
  | none => .ok none
  | some bytes =>
    match word? bytes with
    | some mark => .ok (some mark)
    | none => .error (.corruptValue (.markWidth bytes.length))

/-- Write the mark. -/
def write (store : MarkStore) (mark : UInt64) : Except Error Unit × MarkStore :=
  match store.refusals with
  | 0 => (.ok (), { store with rows := store.rows.insert Layout.markKey (wordBytes mark) })
  | refusals + 1 => (.error (.storage "disk unavailable"), { store with refusals })

end MarkStore

end EntityCatalog
