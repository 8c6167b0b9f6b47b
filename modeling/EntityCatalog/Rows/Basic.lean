import EntityCatalog.Bytes.Basic

/-!
# Ordered rows

Everything a catalog stores is rows of a key and a value, held in strictly increasing order of
keys. The order is part of the type, so no operation checks it and no statement assumes it.
-/

namespace EntityCatalog

/-- A key with the value stored under it. -/
abbrev Row := Bytes × Bytes

/-- The keys of a list of rows increase strictly. -/
def KeysIncrease (list : List Row) : Prop := list.Pairwise fun a b => a.1 < b.1

/-- Put a row in its place in an ordered list, over the row that has its key. -/
def placeRow (key value : Bytes) : List Row → List Row
  | [] => [(key, value)]
  | row :: rest =>
    if key < row.1 then (key, value) :: row :: rest
    else if key = row.1 then (key, value) :: rest
    else row :: placeRow key value rest

/-- Of two different keys, one is below the other. -/
theorem lt_of_not_lt_of_ne {a b : Bytes} (h : ¬ a < b) (hne : a ≠ b) : b < a := by
  by_cases hba : b < a
  · exact hba
  · exact absurd (List.le_antisymm (List.not_lt.mp hba) (List.not_lt.mp h)) hne

/-- A list holds nothing new after a row was put in its place but that row. -/
theorem mem_placeRow {key value : Bytes} {list : List Row} {row : Row}
    (h : row ∈ placeRow key value list) : row = (key, value) ∨ row ∈ list := by
  induction list with
  | nil => simpa [placeRow] using h
  | cons head rest ih =>
    simp only [placeRow] at h
    split at h
    · simpa using h
    · split at h
      · rcases List.mem_cons.mp h with h | h
        · exact Or.inl h
        · exact Or.inr (List.mem_cons_of_mem _ h)
      · rcases List.mem_cons.mp h with h | h
        · exact Or.inr (h ▸ List.mem_cons_self)
        · exact (ih h).imp id (List.mem_cons_of_mem _)

/-- A row put in its place leaves the list in strictly increasing order. -/
theorem placeRow_keysIncrease (key value : Bytes) {list : List Row} (h : KeysIncrease list) :
    KeysIncrease (placeRow key value list) := by
  induction list with
  | nil => simp [placeRow, KeysIncrease]
  | cons head rest ih =>
    obtain ⟨hhead, hrest⟩ := List.pairwise_cons.mp h
    simp only [placeRow]
    split
    · rename_i hlt
      refine List.pairwise_cons.mpr ⟨fun row hrow => ?_, h⟩
      rcases List.mem_cons.mp hrow with hrow | hrow
      · exact hrow ▸ hlt
      · exact List.lt_trans hlt (hhead row hrow)
    · rename_i hnlt
      split
      · rename_i heq
        exact List.pairwise_cons.mpr ⟨fun row hrow => heq ▸ hhead row hrow, hrest⟩
      · rename_i hne
        refine List.pairwise_cons.mpr ⟨fun row hrow => ?_, ih hrest⟩
        rcases mem_placeRow hrow with hrow | hrow
        · exact hrow ▸ lt_of_not_lt_of_ne hnlt hne
        · exact hhead row hrow

/-- Rows in strictly increasing order of keys. -/
structure Rows where
  toList : List Row
  increasing : KeysIncrease toList

namespace Rows

/-- No rows. -/
def empty : Rows := ⟨[], List.Pairwise.nil⟩

instance : Inhabited Rows := ⟨empty⟩

/-- The value stored under a key. -/
def get? (rows : Rows) (key : Bytes) : Option Bytes :=
  (rows.toList.find? fun row => row.1 = key).map Prod.snd

/-- Whether a row has the key. -/
def contains (rows : Rows) (key : Bytes) : Bool := (rows.get? key).isSome

/-- The number of rows. -/
def size (rows : Rows) : Nat := rows.toList.length

/-- Store a value under a key, in place of the value stored there before. -/
def insert (rows : Rows) (key value : Bytes) : Rows :=
  ⟨placeRow key value rows.toList, placeRow_keysIncrease key value rows.increasing⟩

/-- Keep the rows that satisfy a condition. -/
def filter (rows : Rows) (keep : Row → Bool) : Rows :=
  ⟨rows.toList.filter keep, rows.increasing.sublist List.filter_sublist⟩

/-- Remove the row with the key, if there is one. -/
def erase (rows : Rows) (key : Bytes) : Rows := rows.filter fun row => row.1 ≠ key

/-- The rows made by storing each row of a list in turn. -/
def ofList (list : List Row) : Rows := list.foldl (fun rows row => rows.insert row.1 row.2) empty

end Rows

end EntityCatalog
