import EntityCatalog.Rows.Basic

/-!
# Rows below a stem

The rows whose keys extend a stem are found in two ways. A scan starts at the first key that is
not below the stem and stops at the first key that does not extend it. A range runs from the
stem up to its successor; the last row and the removal of all rows use the range.
-/

namespace EntityCatalog.Rows

/-- The rows whose keys extend the stem, in order. -/
def scan (rows : Rows) (stem : Bytes) : List Row :=
  (rows.toList.dropWhile fun row => row.1 < stem).takeWhile fun row => stem.isPrefixOf row.1

/-- Show the rows of a list in turn to a visitor, who carries a state along and says after each row
whether to go on: the number of rows that were shown, and the state at the end. -/
def showRows {σ : Type} (visit : σ → Row → Bool × σ) : σ → List Row → Nat × σ
  | state, [] => (0, state)
  | state, row :: rest =>
    match visit state row with
    | (false, next) => (1, next)
    | (true, next) =>
      match showRows visit next rest with
      | (count, last) => (count + 1, last)

/-- Show the rows whose keys extend the stem to a visitor, in order. -/
def scanWith {σ : Type} (rows : Rows) (stem : Bytes) (visit : σ → Row → Bool × σ) (state : σ) :
    Nat × σ :=
  showRows visit state (rows.scan stem)

/-- The visitor that gathers rows, and goes on as the rows gathered so far and the new one say. -/
def gather (goOn : List Row → Row → Bool) (gathered : List Row) (row : Row) : Bool × List Row :=
  (goOn gathered row, gathered ++ [row])

/-- The first `limit` rows whose keys extend the stem. -/
def scanLimit (rows : Rows) (stem : Bytes) (limit : Nat) : List Row :=
  if limit = 0 then []
  else (rows.scanWith stem (gather fun gathered _ => decide (gathered.length + 1 < limit)) []).2

/-- The rows that are visited when a scan of the stem ends with the first row not wanted. -/
def visited (rows : Rows) (stem : Bytes) (wanted : Row → Bool) : List Row :=
  (rows.scanWith stem (gather fun _ row => wanted row) []).2

/-- Whether a key lies between two bounds, the upper one excluded. -/
def inRange (low : Bytes) (above : Option Bytes) (key : Bytes) : Bool :=
  !decide (key < low) &&
    match above with
    | some bound => decide (key < bound)
    | none => true

/-- Whether a key lies in the interval of a stem. -/
def inStem (stem key : Bytes) : Bool := inRange stem (Bytes.successor stem) key

/-- The last row whose key extends the stem. -/
def last? (rows : Rows) (stem : Bytes) : Option Row :=
  (rows.toList.filter fun row => inStem stem row.1).getLast?

/-- Remove every row whose key extends the stem. -/
def eraseStem (rows : Rows) (stem : Bytes) : Rows := rows.filter fun row => !inStem stem row.1

/-- The number of rows that removing a stem takes away. -/
def countStem (rows : Rows) (stem : Bytes) : Nat :=
  (rows.toList.filter fun row => inStem stem row.1).length

end EntityCatalog.Rows
