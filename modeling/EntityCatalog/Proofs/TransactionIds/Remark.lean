import EntityCatalog.Proofs.TransactionIds.Lifecycle

/-!
# What generators write

Whatever a generator does, it leaves the rows as they are but for the mark row, in which it writes a
word.
-/

namespace EntityCatalog

/-- The second rows are the first ones, perhaps with another mark. -/
def Remarked (rows rows' : Rows) : Prop :=
  rows' = rows ∨ ∃ mark, rows' = rows.insert Layout.markKey (wordBytes mark)

namespace TransactionIds

/-- A write of the mark writes the mark row or nothing. -/
theorem write_remarked (store : MarkStore) (mark : UInt64) :
    Remarked store.rows (store.write mark).2.rows := by
  rw [MarkStore.write]
  split
  · exact Or.inr ⟨mark, rfl⟩
  · exact Or.inl rfl

/-- A flush writes the mark at most. -/
theorem flush_remarked (ids : TransactionIds) (store : MarkStore) :
    Remarked store.rows (ids.flush store).2.2.rows := by
  have hwrite := write_remarked store ids.lastIssued
  rw [flush]
  split
  · exact Or.inl rfl
  · cases h : store.write ids.lastIssued with
    | mk outcome after =>
      rw [h] at hwrite
      cases outcome <;> exact hwrite

/-- A stop writes the mark at most. -/
theorem stop_remarked (ids : TransactionIds) (store : MarkStore) :
    Remarked store.rows (ids.stop store).2.2.rows := by
  cases hrunning : ids.running with
  | false =>
    rw [stop_of_not_running store hrunning]
    exact Or.inl rfl
  | true =>
    rw [(stop_of_running store hrunning).1]
    exact flush_remarked _ store

/-- Ticks write nothing until one of them succeeds, and that one is the last. -/
theorem tick_remarked (ticks : Nat) (ids : TransactionIds) (store : MarkStore) :
    Remarked store.rows (tick ticks ids store).2.rows := by
  induction ticks generalizing ids store with
  | zero => exact Or.inl rfl
  | succ ticks ih =>
    have hflush := flush_remarked ids store
    have hcases := ids.flush_cases store
    rw [tick]
    cases h : ids.flush store with
    | mk outcome rest =>
      obtain ⟨after, marked⟩ := rest
      rw [h] at hflush hcases
      cases outcome with
      | ok wrote => exact hflush
      | error fault =>
        rcases hcases with ⟨⟨wrote, hok⟩, -⟩ | ⟨-, -, hrows⟩
        · exact absurd hok (by simp)
        · have hrest := ih after marked
          rw [show marked.rows = store.rows from hrows] at hrest
          exact hrest

/-- However long it runs, a flusher writes the mark at most. -/
theorem settle_remarked (ids : TransactionIds) (store : MarkStore) (duration : Nat) :
    Remarked store.rows (ids.settle store duration).2.rows := by
  rw [settle]
  split
  · exact tick_remarked _ ids store
  · exact Or.inl rfl

end TransactionIds

end EntityCatalog
