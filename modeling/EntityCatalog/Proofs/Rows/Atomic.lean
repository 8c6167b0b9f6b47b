import EntityCatalog.Proofs.Rows.Batch
import Mathlib.Data.List.Basic

/-!
# A batch is all or nothing

The changes of a batch are made one after another, each to the rows that the changes before it made.
The batch is abandoned exactly when one of its insertions finds its key taken there, and then the rows
are what they were. Otherwise they are what all its changes make of them, which is said here of the
content, the value that is found under each key. The changes that are offered one at a time do the same
as batches of one change, and answer what they found.
-/

namespace EntityCatalog

/-- What a change makes of the rows when nothing stands in its way. -/
def Change.make : Change → Rows → Rows
  | put key value, rows => rows.insert key value
  | insert key value, rows => rows.insert key value
  | erase key, rows => rows.erase key
  | eraseStem stem, rows => rows.eraseStem stem

/-- Only an insertion of a key that is taken is not made. -/
theorem Change.make?_eq_none_iff (change : Change) (rows : Rows) :
    change.make? rows = none ↔
      ∃ key value, change = .insert key value ∧ rows.contains key = true := by
  cases change with
  | insert key value => simp [Change.make?]
  | put key value => simp [Change.make?]
  | erase key => simp [Change.make?]
  | eraseStem stem => simp [Change.make?]

/-- A change that is made is made in full. -/
theorem Change.eq_make_of_make? {change : Change} {rows next : Rows}
    (h : change.make? rows = some next) : next = change.make rows := by
  cases change with
  | insert key value =>
    rw [Change.make?] at h
    split at h
    · exact absurd h (by simp)
    · exact (Option.some.inj h).symm
  | put key value => exact (Option.some.inj h).symm
  | erase key => exact (Option.some.inj h).symm
  | eraseStem stem => exact (Option.some.inj h).symm

/-- What a change makes of the content of a store. -/
def Change.onContent : Change → (Bytes → Option Bytes) → Bytes → Option Bytes
  | put key value, content => fun other => if key = other then some value else content other
  | insert key value, content => fun other => if key = other then some value else content other
  | erase key, content => fun other => if key = other then none else content other
  | eraseStem stem, content => fun other => if stem <+: other then none else content other

/-- What is found after a change is what the change makes of what was found before it. -/
theorem Change.get?_make (change : Change) (rows : Rows) :
    (change.make rows).get? = change.onContent rows.get? := by
  funext other
  cases change with
  | put key value => exact Rows.get?_insert rows key value other
  | insert key value => exact Rows.get?_insert rows key value other
  | erase key => exact Rows.get?_erase rows key other
  | eraseStem stem => exact Rows.get?_eraseStem rows stem other

namespace Rows

/-- The rows after changes that are made one after another. -/
def makeAll (rows : Rows) (changes : List Change) : Rows :=
  changes.foldl (fun rows change => change.make rows) rows

/-- What is found after changes made in turn is what they make in turn of what was found before them. -/
theorem get?_makeAll (rows : Rows) (changes : List Change) :
    (rows.makeAll changes).get? =
      changes.foldl (fun content change => change.onContent content) rows.get? := by
  induction changes generalizing rows with
  | nil => rfl
  | cons change rest ih =>
    rw [makeAll, List.foldl_cons, List.foldl_cons, ← change.get?_make rows]
    exact ih (change.make rows)

/-- Whether some insertion of a batch finds its key taken by the rows that the changes before it made. -/
def Blocks (rows : Rows) (changes : List Change) : Prop :=
  ∃ before key value after, changes = before ++ .insert key value :: after ∧
    (rows.makeAll before).contains key = true

/-- No changes are not blocked. -/
theorem not_blocks_nil (rows : Rows) : ¬ rows.Blocks [] := by
  rintro ⟨before, key, value, after, h, -⟩
  exact absurd h (by simp)

/-- A batch is blocked by its first change, or by one of the others after it. -/
theorem blocks_cons_iff (rows : Rows) (change : Change) (rest : List Change) :
    rows.Blocks (change :: rest) ↔ change.make? rows = none ∨ (change.make rows).Blocks rest := by
  rw [Change.make?_eq_none_iff]
  constructor
  · rintro ⟨before, key, value, after, hchanges, htaken⟩
    cases before with
    | nil =>
      obtain ⟨rfl, rfl⟩ := List.cons.inj hchanges
      exact Or.inl ⟨key, value, rfl, htaken⟩
    | cons first before =>
      obtain ⟨rfl, rfl⟩ := List.cons.inj hchanges
      exact Or.inr ⟨before, key, value, after, rfl, htaken⟩
  · rintro (⟨key, value, rfl, htaken⟩ | ⟨before, key, value, after, rfl, htaken⟩)
    · exact ⟨[], key, value, rest, rfl, htaken⟩
    · exact ⟨change :: before, key, value, after, rfl, htaken⟩

/-- A batch is abandoned exactly when it is blocked. -/
theorem batch?_eq_none_iff (changes : List Change) (rows : Rows) :
    batch? changes rows = none ↔ rows.Blocks changes := by
  induction changes generalizing rows with
  | nil => simp [batch?, not_blocks_nil]
  | cons change rest ih =>
    rw [blocks_cons_iff, batch?]
    cases hmade : change.make? rows with
    | none => simp
    | some next =>
      obtain rfl := Change.eq_make_of_make? hmade
      simp [ih]

/-- A batch that is not abandoned makes all its changes. -/
theorem eq_makeAll_of_batch? {changes : List Change} {rows next : Rows}
    (h : batch? changes rows = some next) : next = rows.makeAll changes := by
  induction changes generalizing rows with
  | nil => exact (Option.some.inj h).symm
  | cons change rest ih =>
    rw [batch?] at h
    split at h
    · rename_i middle hmade
      obtain rfl := Change.eq_make_of_make? hmade
      exact ih h
    · exact absurd h (by simp)

/-- A batch is applied exactly when all its changes are made, with the rows that they make. -/
theorem batch_eq_true_iff (rows : Rows) (changes : List Change) (next : Rows) :
    rows.batch changes = (true, next) ↔ batch? changes rows = some next := by
  rw [batch_eq]
  cases batch? changes rows <;> simp

/-! ## One change at a time -/

/-- A batch of one change is applied when that change is made. -/
theorem batch_singleton_of_make? {rows next : Rows} {change : Change}
    (h : change.make? rows = some next) : rows.batch [change] = (true, next) := by
  rw [batch_eq_true_iff, batch?, h]
  rfl

/-- A new row is stored exactly when its key is free. -/
theorem insertNew_eq_true_iff (rows : Rows) (key value : Bytes) :
    (rows.insertNew key value).1 = true ↔ rows.get? key = none := by
  cases hkey : rows.get? key with
  | none => simp [insertNew_of_none value hkey]
  | some old => simp [insertNew_of_some value hkey]

/-- A deletion says whether a value was found under its key. -/
theorem delete_eq_true_iff (rows : Rows) (key : Bytes) :
    (rows.delete key).1 = true ↔ ∃ value, rows.get? key = some value := by
  change rows.contains key = true ↔ _
  rw [contains, Option.isSome_iff_exists]

/-- The rows that the deletion of a stem counts are those that are gone after it. -/
theorem deleteStem_count_add_size (rows : Rows) (stem : Bytes) :
    (rows.deleteStem stem).1 + (rows.deleteStem stem).2.size = rows.size :=
  (List.length_eq_length_filter_add fun row : Row => inStem stem row.1).symm

/-- A blocked batch leaves the rows as they were. Any other makes all its changes in turn, and what is
found after it is what they make in turn of what was found before it. A batch in two parts is made exactly
when the parts are made one after the other, with the same rows. A value put, a new value, the deletion of
a key and the deletion of a stem do the same as their batches of one change. A new value answers whether
its key was free, the deletion of a key whether a value was there, and the deletion of a stem how many rows
are gone. -/
theorem batch_atomic (rows : Rows) (changes : List Change) :
    (rows.Blocks changes → rows.batch changes = (false, rows)) ∧
    (¬ rows.Blocks changes → rows.batch changes = (true, rows.makeAll changes) ∧
      (rows.makeAll changes).get? =
        changes.foldl (fun content change => change.onContent content) rows.get?) ∧
    (∀ more next, rows.batch (changes ++ more) = (true, next) ↔
      ∃ middle, rows.batch changes = (true, middle) ∧ middle.batch more = (true, next)) ∧
    (∀ key value, rows.batch [.put key value] = (true, rows.put key value)) ∧
    (∀ key value, rows.batch [.insert key value] = rows.insertNew key value ∧
      ((rows.insertNew key value).1 = true ↔ rows.get? key = none)) ∧
    (∀ key, rows.batch [.erase key] = (true, (rows.delete key).2) ∧
      ((rows.delete key).1 = true ↔ ∃ value, rows.get? key = some value)) ∧
    ∀ stem, rows.batch [.eraseStem stem] = (true, (rows.deleteStem stem).2) ∧
      (rows.deleteStem stem).1 + (rows.deleteStem stem).2.size = rows.size := by
  refine ⟨fun hblocks => ?_, fun hfree => ⟨?_, rows.get?_makeAll changes⟩, fun more next => ?_,
    fun key value => batch_singleton_of_make? rfl,
    fun key value => ⟨rfl, rows.insertNew_eq_true_iff key value⟩,
    fun key => ⟨batch_singleton_of_make? rfl, rows.delete_eq_true_iff key⟩,
    fun stem => ⟨batch_singleton_of_make? rfl, rows.deleteStem_count_add_size stem⟩⟩
  · rw [batch_eq, (batch?_eq_none_iff changes rows).mpr hblocks]
  · rw [← batch?_eq_none_iff] at hfree
    obtain ⟨next, hnext⟩ := Option.ne_none_iff_exists'.mp hfree
    rw [(batch_eq_true_iff rows changes next).mpr hnext, eq_makeAll_of_batch? hnext]
  · simp only [batch_eq_true_iff, batch?_append]
    exact Option.bind_eq_some_iff

/-- The first insertion finds its key free again, the second finds it taken by the first. -/
example : (ofList [([7], [0])]).batch [.eraseStem [], .insert [7] [1], .insert [7] [2]] =
    (false, ofList [([7], [0])]) := rfl

end Rows

end EntityCatalog
