import EntityCatalog.Proofs.Names.Bindings

/-!
# Moving a binding

A rename takes an id from its old name, gives it to the new one, and notes the new name in the id
row. All other rows are those that the changes along with the rename leave. The id that was bound
to the new name before, if there was one, keeps its id row and loses its name.
-/

namespace EntityCatalog

namespace Names

/-- The second rows are the first ones after an id was moved from an old name to a new one. -/
def Moved (rows rows' : Rows) (old new : String) (id : UInt64) : Prop :=
  ∀ key, rows'.get? key =
    if Layout.idKey id = key then some (Text.utf8 new)
    else if Layout.nameKey new = key then some (wordBytes id)
    else if Layout.nameKey old = key then none
    else rows.get? key

namespace Moved

variable {rows rows' : Rows} {old new : String} {id : UInt64}

/-- Who is bound to what after a move. -/
theorem boundId?_eq (h : Moved rows rows' old new id) (name : String) :
    boundId? rows' name =
      if new = name then some id else if old = name then none else boundId? rows name := by
  have hid : Layout.idKey id ≠ Layout.nameKey name := (Layout.nameKey_ne_idKey name id).symm
  rw [boundId?, h, if_neg hid]
  by_cases hnew : new = name
  · rw [if_pos (congrArg Layout.nameKey hnew), if_pos hnew, Option.bind_some, word?_wordBytes]
  · rw [if_neg (Layout.nameKey_ne hnew), if_neg hnew]
    by_cases hold : old = name
    · rw [if_pos (congrArg Layout.nameKey hold), if_pos hold, Option.bind_none]
    · rw [if_neg (Layout.nameKey_ne hold), if_neg hold, boundId?]

/-- A key that is neither that of a name nor that of an id keeps its row. -/
theorem get?_eq (h : Moved rows rows' old new id) {key : Bytes}
    (hname : ∀ name, Layout.nameKey name ≠ key) (hid : ∀ id, Layout.idKey id ≠ key) :
    rows'.get? key = rows.get? key := by
  rw [h, if_neg (hid id), if_neg (hname new), if_neg (hname old)]

/-- A move keeps the rows consistent: the name that loses its id was the only one that had it. -/
theorem consistent (h : Moved rows rows' old new id) (hrows : Consistent rows)
    (hold : boundId? rows old = some id) : Consistent rows' := by
  refine ⟨fun name bytes hbytes => ?_, fun name id' hbound => ?_⟩
  · rw [h, if_neg (Layout.nameKey_ne_idKey name id).symm] at hbytes
    split at hbytes
    · exact ⟨id, (Option.some.inj hbytes).symm⟩
    · split at hbytes
      · exact absurd hbytes (by simp)
      · exact hrows.legible name bytes hbytes
  · rw [h.boundId?_eq] at hbound
    rw [h]
    split at hbound
    · rename_i heq
      rw [if_pos (congrArg Layout.idKey (Option.some.inj hbound)), heq]
    · split at hbound
      · exact absurd hbound (by simp)
      · rename_i hne
        have hids : Layout.idKey id ≠ Layout.idKey id' := by
          intro heq
          rw [← Layout.idKey_injective heq] at hbound
          exact hne (hrows.name_unique hold hbound)
        rw [if_neg hids, if_neg (Layout.nameKey_ne_idKey new id'),
          if_neg (Layout.nameKey_ne_idKey old id')]
        exact hrows.paired name id' hbound

end Moved

/-- Moving an id to a free name is never abandoned. -/
theorem batch?_moveChanges {rows : Rows} (old : String) {new : String} (id : UInt64)
    (hnew : rows.get? (Layout.nameKey new) = none) :
    ∃ rows', Rows.batch? (moveChanges old new id) rows = some rows' ∧ Moved rows rows' old new id := by
  have hfree : (rows.erase (Layout.nameKey old)).contains (Layout.nameKey new) = false := by
    rw [Rows.contains_eq_false_iff, Rows.get?_erase, hnew, ite_self]
  refine ⟨((rows.erase (Layout.nameKey old)).insert (Layout.nameKey new) (wordBytes id)).insert
    (Layout.idKey id) (Text.utf8 new), ?_, fun key => ?_⟩
  · simp [moveChanges, Rows.batch?, Change.make?, hfree]
  · rw [Rows.get?_insert, Rows.get?_insert, Rows.get?_erase]

/-! ## The batch of a rename -/

/-- The changes that remove the name row of a bound name. -/
def clearChanges (rows : Rows) (name : String) : List Change :=
  if (boundId? rows name).isSome then [.erase (Layout.nameKey name)] else []

/-- The batch of a rename whose new name is free or gives up its id: the changes that go along, and
after them, between different names, those of the rows of the two names and the id. -/
def renameBatch (rows : Rows) (old new : String) (id : UInt64) (along : List Change) : List Change :=
  if old = new then along else along ++ clearChanges rows new ++ moveChanges old new id

/-- The name row of a new name is gone before the move, whether it was there or not. -/
theorem batch?_clearChanges {rows mid : Rows} (hrows : Consistent rows) {new : String}
    (hkept : mid.get? (Layout.nameKey new) = rows.get? (Layout.nameKey new)) :
    ∃ cleared, Rows.batch? (clearChanges rows new) mid = some cleared ∧
      cleared.get? (Layout.nameKey new) = none ∧
      ∀ key, Layout.nameKey new ≠ key → cleared.get? key = mid.get? key := by
  rw [clearChanges]
  cases hbound : boundId? rows new with
  | none =>
    refine ⟨mid, rfl, ?_, fun _ _ => rfl⟩
    rw [hkept]
    exact (hrows.boundId?_eq_none_iff new).mp hbound
  | some taken =>
    exact ⟨mid.erase (Layout.nameKey new), rfl, Rows.get?_erase_self mid _,
      fun key hkey => Rows.get?_erase_of_ne mid hkey⟩

/-- The batch of a rename between different names moves the id, on top of the changes that go along
with it. -/
theorem batch?_renameBatch {rows mid : Rows} (hrows : Consistent rows) {old new : String}
    (id : UInt64) {along : List Change} (hne : old ≠ new) (hmid : Rows.batch? along rows = some mid)
    (hkept : mid.get? (Layout.nameKey new) = rows.get? (Layout.nameKey new)) :
    ∃ rows', Rows.batch? (renameBatch rows old new id along) rows = some rows' ∧
      Moved mid rows' old new id := by
  obtain ⟨cleared, hcleared, hnone, hsame⟩ := batch?_clearChanges hrows hkept
  obtain ⟨rows', hmoved, hget⟩ := batch?_moveChanges old id hnone
  refine ⟨rows', ?_, fun key => ?_⟩
  · rw [renameBatch, if_neg hne, Rows.batch?_append, Rows.batch?_append, hmid, Option.bind_some,
      hcleared, Option.bind_some, hmoved]
  · rw [hget key]
    by_cases hkey : Layout.nameKey new = key
    · rw [if_pos hkey, if_pos hkey]
    · rw [hsame key hkey]

/-- An insertion that abandons the changes that go along abandons the whole batch. -/
theorem batch?_renameBatch_of_none {rows : Rows} (old new : String) (id : UInt64)
    {along : List Change} (h : Rows.batch? along rows = none) :
    Rows.batch? (renameBatch rows old new id along) rows = none := by
  rw [renameBatch]
  split
  · exact h
  · rw [List.append_assoc, Rows.batch?_append, h, Option.bind_none]

/-- A rename whose new name is free or gives up its id plans that batch. -/
theorem renameChanges_eq {rows : Rows} (hrows : Consistent rows) {old new : String} (id : UInt64)
    {replaced : Option UInt64} (along : List Change)
    (hnew : old = new ∨ ∀ taken, boundId? rows new = some taken → replaced = some taken) :
    renameChanges rows old new id replaced along = .ok (renameBatch rows old new id along) := by
  rw [renameChanges, renameBatch]
  by_cases hsame : old = new
  · rw [if_pos hsame, if_pos hsame]
  · rw [if_neg hsame, if_neg hsame, hrows.storedId?_eq, clearChanges]
    cases hbound : boundId? rows new with
    | none => rfl
    | some taken =>
      have hreplaced := hnew.resolve_left hsame taken hbound
      simp [freeChanges, hreplaced, Except.map]

/-- A rename plans nothing when its new name is bound to an id that is not to be replaced. -/
theorem renameChanges_of_taken {rows : Rows} (hrows : Consistent rows) {old new : String}
    (id : UInt64) {replaced : Option UInt64} (along : List Change) (hne : old ≠ new) {taken : UInt64}
    (htaken : boundId? rows new = some taken) (hreplaced : replaced ≠ some taken) :
    renameChanges rows old new id replaced along = .error (.nameTaken new) := by
  rw [renameChanges, if_neg hne, hrows.storedId?_eq, htaken]
  dsimp only
  rw [freeChanges, if_neg hreplaced]
  rfl

/-- What committing the changes of a rename comes to, whether their batch is applied or abandoned. -/
theorem commitRename_eq (names : Names) (old new : String) (changes : List Change) :
    names.commitRename old new changes =
      match Rows.batch? changes names.rows with
      | some rows => (.ok true, { (names.forget old).forget new with rows })
      | none => (.error (.nameTaken new), (names.forget old).forget new) := by
  have hrows : ((names.forget old).forget new).rows = names.rows := rfl
  rw [commitRename, hrows, Rows.batch_eq]
  cases Rows.batch? changes names.rows <;> rfl

/-- Committing the changes of a rename is answered with true exactly when their batch is applied. -/
theorem commitRename_answer (names : Names) (old new : String) (changes : List Change) :
    (names.commitRename old new changes).1 =
      if (Rows.batch? changes names.rows).isSome then .ok true else .error (.nameTaken new) := by
  rw [commitRename_eq]
  cases Rows.batch? changes names.rows <;> rfl

/-- Committing the changes of a rename applies them as a batch. -/
theorem rows_commitRename (names : Names) (old new : String) (changes : List Change) :
    (names.commitRename old new changes).2.rows = (names.rows.batch changes).2 := by
  rw [commitRename_eq, Rows.batch_eq]
  cases Rows.batch? changes names.rows <;> rfl

/-- A commit answers true exactly when no insertion abandons its batch. -/
theorem commitRename_eq_true_iff (names : Names) (old new : String) (changes : List Change) :
    (names.commitRename old new changes).1 = .ok true ↔
      ∃ rows, Rows.batch? changes names.rows = some rows := by
  rw [commitRename_answer]
  cases Rows.batch? changes names.rows <;> simp

/-- A commit never answers false. -/
theorem commitRename_ne_false (names : Names) (old new : String) (changes : List Change) :
    (names.commitRename old new changes).1 ≠ .ok false := by
  rw [commitRename_answer]
  cases Rows.batch? changes names.rows <;> simp

/-- A commit that is made leaves the rows of its batch. -/
theorem rows_commitRename_of_made {names : Names} {old new : String} {changes : List Change}
    {rows : Rows} (h : Rows.batch? changes names.rows = some rows) :
    (names.commitRename old new changes).2.rows = rows := by
  rw [rows_commitRename, Rows.batch_eq, h]

/-- A commit that is not made leaves the rows as they were. -/
theorem rows_commitRename_of_failed {names : Names} {old new : String} {changes : List Change}
    (h : (names.commitRename old new changes).1 ≠ .ok true) :
    (names.commitRename old new changes).2.rows = names.rows := by
  rw [rows_commitRename, Rows.batch_eq]
  cases hbatch : Rows.batch? changes names.rows with
  | none => rfl
  | some rows => exact absurd ((commitRename_eq_true_iff _ _ _ _).mpr ⟨rows, hbatch⟩) h

/-- A rename of a name that is not bound writes nothing. -/
theorem renameWith_of_unbound {names : Names} (hrows : Consistent names.rows) {old : String}
    (new : String) (replaced : Option UInt64) (along : List Change)
    (hold : boundId? names.rows old = none) :
    names.renameWith old new replaced along = (.ok false, names) := by
  rw [renameWith, hrows.storedId?_eq, hold]

/-- A rename to a name that is bound to an id that is not to be replaced writes nothing. -/
theorem renameWith_of_taken {names : Names} (hrows : Consistent names.rows) {old new : String}
    {id taken : UInt64} {replaced : Option UInt64} (along : List Change) (hne : old ≠ new)
    (hold : boundId? names.rows old = some id) (htaken : boundId? names.rows new = some taken)
    (hreplaced : replaced ≠ some taken) :
    names.renameWith old new replaced along = (.error (.nameTaken new), names) := by
  rw [renameWith, hrows.storedId?_eq, hold]
  dsimp only
  rw [renameChanges_of_taken hrows id along hne htaken hreplaced]

/-- Any other rename of a bound name commits its batch. -/
theorem renameWith_of_bound {names : Names} (hrows : Consistent names.rows) {old new : String}
    {id : UInt64} {replaced : Option UInt64} (along : List Change)
    (hold : boundId? names.rows old = some id)
    (hnew : old = new ∨ ∀ taken, boundId? names.rows new = some taken → replaced = some taken) :
    names.renameWith old new replaced along =
      names.commitRename old new (renameBatch names.rows old new id along) := by
  rw [renameWith, hrows.storedId?_eq, hold]
  dsimp only
  rw [renameChanges_eq hrows id along hnew]

/-- A rename to a name that is free or whose id is to be replaced moves the id of the old name, on
top of the changes that go along with it. -/
theorem renameWith_moves {names : Names} (h : names.Faithful) (hrows : Consistent names.rows)
    {old new : String} {id : UInt64} {replaced : Option UInt64} {along : List Change} {mid : Rows}
    (hne : old ≠ new) (hold : boundId? names.rows old = some id)
    (hnew : ∀ taken, boundId? names.rows new = some taken → replaced = some taken)
    (halong : SparesNames along) (hmid : Rows.batch? along names.rows = some mid) :
    (names.renameWith old new replaced along).1 = .ok true ∧
      Moved mid (names.renameWith old new replaced along).2.rows old new id ∧
      (names.renameWith old new replaced along).2.Faithful := by
  have hfaithful := (renameWith_transparent h old new replaced halong).faithful
  obtain ⟨rows', hbatch, hmoved⟩ := batch?_renameBatch hrows id hne hmid
    (Rows.get?_of_batch? hmid fun change hchange => halong change hchange new)
  rw [renameWith_of_bound hrows along hold (Or.inr hnew)] at hfaithful ⊢
  rw [← rows_commitRename_of_made hbatch] at hmoved
  exact ⟨(commitRename_eq_true_iff _ _ _ _).mpr ⟨rows', hbatch⟩, hmoved, hfaithful⟩

end Names

end EntityCatalog
