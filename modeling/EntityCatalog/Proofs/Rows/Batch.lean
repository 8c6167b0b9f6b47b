import EntityCatalog.Proofs.Rows.Stem

/-!
# What a batch leaves alone

A batch whose work ends early keeps nothing of it, so it is applied in full or not at all. It changes no
row that none of its changes touches, and an abandoned batch changes no row at all.
-/

namespace EntityCatalog

/-- Whether a change may write or remove the row with a key. -/
def Change.Touches : Change → Bytes → Prop
  | put key _, other => key = other
  | insert key _, other => key = other
  | erase key, other => key = other
  | eraseStem stem, other => stem <+: other

/-- A change keeps every row that it does not touch. -/
theorem Change.get?_of_not_touches {change : Change} {rows next : Rows} {key : Bytes}
    (h : change.make? rows = some next) (hkey : ¬ change.Touches key) :
    next.get? key = rows.get? key := by
  cases change with
  | put key' value =>
    obtain rfl := Option.some.inj h
    exact Rows.get?_insert_of_ne rows value hkey
  | insert key' value =>
    rw [Change.make?] at h
    split at h
    · exact absurd h (by simp)
    · obtain rfl := Option.some.inj h
      exact Rows.get?_insert_of_ne rows value hkey
  | erase key' =>
    obtain rfl := Option.some.inj h
    exact Rows.get?_erase_of_ne rows hkey
  | eraseStem stem =>
    obtain rfl := Option.some.inj h
    exact (Rows.get?_eraseStem rows stem key).trans (if_neg hkey)

namespace Rows

/-- The rows after every change in turn, or nothing if one of them is not made. -/
def batch? : List Change → Rows → Option Rows
  | [], rows => some rows
  | change :: rest, rows =>
    match change.make? rows with
    | some next => batch? rest next
    | none => none

/-- Changes made in turn are all made exactly when each of them is. -/
theorem batch?_eq_makeInTurn (changes : List Change) (rows : Rows) :
    batch? changes rows =
      if (makeInTurn changes rows).1 then some (makeInTurn changes rows).2 else none := by
  induction changes generalizing rows with
  | nil => rfl
  | cons change rest ih =>
    rw [batch?, makeInTurn]
    cases change.make? rows with
    | none => rfl
    | some next => exact ih next

/-- A batch is applied with the rows that all its changes made, or keeps the rows that were there. -/
theorem batch_eq (rows : Rows) (changes : List Change) :
    rows.batch changes =
      match batch? changes rows with
      | some next => (true, next)
      | none => (false, rows) := by
  rw [batch, transact, batch?_eq_makeInTurn]
  cases makeInTurn changes rows with
  | mk all next => cases all <;> rfl

/-- A batch keeps every row that none of its changes touches. -/
theorem get?_of_batch? {changes : List Change} {rows next : Rows} {key : Bytes}
    (h : batch? changes rows = some next) (hkey : ∀ change ∈ changes, ¬ change.Touches key) :
    next.get? key = rows.get? key := by
  induction changes generalizing rows with
  | nil =>
    obtain rfl := Option.some.inj h
    rfl
  | cons change rest ih =>
    simp only [batch?] at h
    split at h
    · rename_i mid hmid
      rw [ih h fun other hother => hkey other (List.mem_cons_of_mem _ hother),
        Change.get?_of_not_touches hmid (hkey change List.mem_cons_self)]
    · exact absurd h (by simp)

/-- Two batches in a row are one. -/
theorem batch?_append (first second : List Change) (rows : Rows) :
    batch? (first ++ second) rows = (batch? first rows).bind (batch? second) := by
  induction first generalizing rows with
  | nil => rfl
  | cons change rest ih =>
    simp only [List.cons_append, batch?]
    cases change.make? rows with
    | none => rfl
    | some next => exact ih next

/-- Applied or not, a batch keeps every row that none of its changes touches. -/
theorem get?_batch_of_not_touches {changes : List Change} {key : Bytes} (rows : Rows)
    (hkey : ∀ change ∈ changes, ¬ change.Touches key) :
    (rows.batch changes).2.get? key = rows.get? key := by
  rw [batch_eq]
  cases h : batch? changes rows with
  | none => rfl
  | some next => exact get?_of_batch? h hkey

/-- An insertion of a free key is applied. -/
theorem insertNew_of_none {rows : Rows} {key : Bytes} (value : Bytes)
    (h : rows.get? key = none) : rows.insertNew key value = (true, rows.insert key value) := by
  simp [insertNew, batch_eq, batch?, Change.make?, (contains_eq_false_iff rows key).mpr h]

/-- An insertion of a key that is taken is abandoned. -/
theorem insertNew_of_some {rows : Rows} {key old : Bytes} (value : Bytes)
    (h : rows.get? key = some old) : rows.insertNew key value = (false, rows) := by
  simp [insertNew, batch_eq, batch?, Change.make?, contains, h]

end Rows

end EntityCatalog
