import EntityCatalog.Rows.Batch

/-!
# What the rows hold

Rows are read through the value stored under each key. These lemmas say what each operation
does to that reading, so that no later proof looks at the ordered list itself.
-/

namespace EntityCatalog

/-- In an ordered list, the row with a key is found exactly when it is there. -/
theorem KeysIncrease.find?_eq_some_iff {list : List Row} (h : KeysIncrease list) (row : Row) :
    list.find? (fun other => other.1 = row.1) = some row ↔ row ∈ list := by
  induction list with
  | nil => simp
  | cons head rest ih =>
    obtain ⟨hhead, hrest⟩ := List.pairwise_cons.mp h
    by_cases heq : head.1 = row.1
    · simp only [List.find?_cons, heq, decide_true, Option.some.injEq, List.mem_cons]
      refine ⟨fun hrow => Or.inl hrow.symm, fun hrow => ?_⟩
      rcases hrow with rfl | hrow
      · rfl
      · exact absurd (heq ▸ hhead row hrow) (List.lt_irrefl _)
    · simp only [List.find?_cons, heq, decide_false, List.mem_cons]
      rw [ih hrest]
      refine ⟨Or.inr, fun hrow => hrow.resolve_left fun hsame => heq (hsame ▸ rfl)⟩

/-- Looking a key up after a row was put in its place. -/
theorem find?_placeRow (key value key' : Bytes) {list : List Row} (h : KeysIncrease list) :
    (placeRow key value list).find? (fun row => row.1 = key') =
      if key = key' then some (key, value) else list.find? (fun row => row.1 = key') := by
  induction list with
  | nil => by_cases heq : key = key' <;> simp [placeRow, heq]
  | cons head rest ih =>
    obtain ⟨hhead, hrest⟩ := List.pairwise_cons.mp h
    by_cases heq : key = key'
    · subst heq
      simp only [placeRow]
      split
      · simp
      · split
        · simp
        · rename_i hnlt hne
          have hne' : ¬ head.1 = key := fun hsame => hne hsame.symm
          simp [hne', ih hrest]
    · simp only [placeRow]
      split
      · simp [List.find?_cons, heq]
      · split
        · rename_i hsame
          have hne : ¬ head.1 = key' := fun hother => heq (hsame.trans hother)
          simp [heq, hne]
        · by_cases hother : head.1 = key' <;> simp [heq, hother, ih hrest]

namespace Rows

/-- A row is there exactly when its value is stored under its key. -/
theorem mem_toList_iff (rows : Rows) (row : Row) :
    row ∈ rows.toList ↔ rows.get? row.1 = some row.2 := by
  rw [get?, Option.map_eq_some_iff]
  constructor
  · intro hrow
    exact ⟨row, (rows.increasing.find?_eq_some_iff row).mpr hrow, rfl⟩
  · rintro ⟨found, hfound, hvalue⟩
    have hkey : found.1 = row.1 := by simpa using List.find?_some hfound
    have hsame : found = row := Prod.ext hkey hvalue
    exact (rows.increasing.find?_eq_some_iff row).mp (hsame ▸ hfound)

/-- Without rows nothing is stored under any key. -/
@[simp] theorem get?_empty (key : Bytes) : empty.get? key = none := rfl

/-- Storing a value changes what is stored under its key alone. -/
theorem get?_insert (rows : Rows) (key value key' : Bytes) :
    (rows.insert key value).get? key' = if key = key' then some value else rows.get? key' := by
  simp only [get?, insert, find?_placeRow key value key' rows.increasing]
  by_cases heq : key = key' <;> simp [heq]

/-- A value that was stored is found under its key. -/
@[simp] theorem get?_insert_self (rows : Rows) (key value : Bytes) :
    (rows.insert key value).get? key = some value := by
  rw [get?_insert, if_pos rfl]

/-- Storing a value changes nothing under other keys. -/
theorem get?_insert_of_ne (rows : Rows) (value : Bytes) {key key' : Bytes} (h : key ≠ key') :
    (rows.insert key value).get? key' = rows.get? key' := by
  rw [get?_insert, if_neg h]

/-- Keeping some of the rows keeps the value of a key exactly when its row is kept. -/
theorem get?_filter_eq_some_iff (rows : Rows) (keep : Row → Bool) (key value : Bytes) :
    (rows.filter keep).get? key = some value ↔
      rows.get? key = some value ∧ keep (key, value) = true := by
  have hrow := mem_toList_iff (rows.filter keep) (key, value)
  rw [← hrow, filter, List.mem_filter, mem_toList_iff]

/-- Keeping rows by a condition on their keys. -/
theorem get?_filter_key (rows : Rows) (keep : Bytes → Bool) (key : Bytes) :
    (rows.filter fun row => keep row.1).get? key =
      if keep key = true then rows.get? key else none := by
  apply Option.ext
  intro value
  rw [get?_filter_eq_some_iff]
  split <;> simp_all

/-- Removing a key changes what is stored under it alone. -/
theorem get?_erase (rows : Rows) (key key' : Bytes) :
    (rows.erase key).get? key' = if key = key' then none else rows.get? key' := by
  have hfilter := get?_filter_key rows (fun other => decide (other ≠ key)) key'
  rw [erase, hfilter]
  by_cases heq : key = key'
  · simp [heq]
  · have hne : ¬ key' = key := fun hsame => heq hsame.symm
    simp [heq, hne]

/-- Nothing is found under a key that was removed. -/
@[simp] theorem get?_erase_self (rows : Rows) (key : Bytes) : (rows.erase key).get? key = none := by
  rw [get?_erase, if_pos rfl]

/-- Removing a key changes nothing under other keys. -/
theorem get?_erase_of_ne (rows : Rows) {key key' : Bytes} (h : key ≠ key') :
    (rows.erase key).get? key' = rows.get? key' := by
  rw [get?_erase, if_neg h]

/-- No row has a key exactly if nothing is found under it. -/
theorem contains_eq_false_iff (rows : Rows) (key : Bytes) :
    rows.contains key = false ↔ rows.get? key = none := by
  simp [contains]

end Rows

end EntityCatalog
