import EntityCatalog.Rows.Stem

/-!
# Transactions and batches

Rows are changed by work in a transaction. The work says whether the rows that it made are kept; if it
does not keep them, the rows are what they were before it. A value is put, a key deleted and a stem
deleted in a transaction of its own. A batch makes its changes one after another in one transaction,
each on the rows that the changes before it made; when an insertion finds its key taken, the work ends
there and keeps nothing.
-/

namespace EntityCatalog

/-- One change of a batch. -/
inductive Change where
  | put (key value : Bytes)
  | insert (key value : Bytes)
  | erase (key : Bytes)
  | eraseStem (stem : Bytes)
deriving DecidableEq, Repr

/-- The rows after one change, or nothing if an insertion finds its key taken. -/
def Change.make? : Change → Rows → Option Rows
  | put key value, rows => some (rows.insert key value)
  | insert key value, rows => if rows.contains key then none else some (rows.insert key value)
  | erase key, rows => some (rows.erase key)
  | eraseStem stem, rows => some (rows.eraseStem stem)

namespace Rows

/-- Work on the rows in a transaction. The work says whether its rows are kept, what it answers and
which rows it made. -/
def transact {α : Type} (rows : Rows) (work : Rows → Bool × α × Rows) : α × Rows :=
  match work rows with
  | (true, result, next) => (result, next)
  | (false, result, _) => (result, rows)

/-- Make changes in turn up to the first that is not made: whether all were made, and the rows after
those that were. -/
def makeInTurn : List Change → Rows → Bool × Rows
  | [], rows => (true, rows)
  | change :: rest, rows =>
    match change.make? rows with
    | some next => makeInTurn rest next
    | none => (false, rows)

/-- Apply a batch: whether it was applied, and the rows after it. -/
def batch (rows : Rows) (changes : List Change) : Bool × Rows :=
  rows.transact fun rows =>
    match makeInTurn changes rows with
    | (all, next) => (all, all, next)

/-- Store a value under a key, free or taken. -/
def put (rows : Rows) (key value : Bytes) : Rows :=
  (rows.transact fun rows => (true, (), rows.insert key value)).2

/-- Store a value under a key that is free: whether it was stored, and the rows after it. -/
def insertNew (rows : Rows) (key value : Bytes) : Bool × Rows := rows.batch [.insert key value]

/-- Remove the row of a key: whether there was one, and the rows after it. -/
def delete (rows : Rows) (key : Bytes) : Bool × Rows :=
  rows.transact fun rows => (true, rows.contains key, rows.erase key)

/-- Remove every row whose key extends the stem: how many there were, and the rows after it. -/
def deleteStem (rows : Rows) (stem : Bytes) : Nat × Rows :=
  rows.transact fun rows => (true, rows.countStem stem, rows.eraseStem stem)

end Rows

end EntityCatalog
