import EntityCatalog.Proofs.TransactionIds.Issue

/-!
# Starting, flushing and stopping

What a start, a flush and a stop do to a generator and to the durable mark. A start takes the
durable mark over, also when the system refuses the thread that it needs, a flush writes the last id
unless it is refused, and a stop flushes a generator that runs. None of them lowers the last id.
-/

namespace EntityCatalog

namespace TransactionIds

/-- A flush makes the last id durable or is refused. It writes nothing if the last id was flushed
before. -/
theorem flush_cases (ids : TransactionIds) (store : MarkStore) :
    ((∃ wrote, (ids.flush store).1 = .ok wrote) ∧
      (ids.flush store).2.1 = { ids with flushed := ids.lastIssued } ∧
      (ids.flushed = store.durable → (ids.flush store).2.2.durable = ids.lastIssued)) ∨
    (∃ fault, (ids.flush store).1 = .error fault) ∧
      (ids.flush store).2.1 = ids ∧ (ids.flush store).2.2.rows = store.rows := by
  rw [flush]
  split
  · rename_i hsame
    refine Or.inl ⟨⟨false, rfl⟩, ?_, fun hflushed => ?_⟩
    · obtain ⟨timing, lastIssued, flushed, running⟩ := ids
      obtain rfl : lastIssued = flushed := hsame
      rfl
    · rw [hsame, hflushed]
  · have hwrite := store.write_cases ids.lastIssued
    cases h : store.write ids.lastIssued with
    | mk outcome after =>
      rw [h] at hwrite
      cases outcome with
      | ok =>
        rcases hwrite with ⟨-, hdurable⟩ | ⟨⟨fault, hfault⟩, -⟩
        · exact Or.inl ⟨⟨true, rfl⟩, rfl, fun _ => hdurable⟩
        · exact absurd hfault (by simp)
      | error fault =>
        rcases hwrite with ⟨hok, -⟩ | ⟨-, hrows⟩
        · exact absurd hok (by simp)
        · exact Or.inr ⟨⟨fault, rfl⟩, rfl, hrows⟩

/-- Only a last id that was not flushed can be refused. -/
theorem lastIssued_ne_of_flush_error {ids : TransactionIds} {store : MarkStore} {fault : Error}
    (h : (ids.flush store).1 = .error fault) : ids.lastIssued ≠ ids.flushed := by
  intro heq
  rw [flush, if_pos heq] at h
  exact absurd h (by simp)

/-- A flush keeps the last id. -/
theorem flush_lastIssued (ids : TransactionIds) (store : MarkStore) :
    (ids.flush store).2.1.lastIssued = ids.lastIssued := by
  rcases ids.flush_cases store with ⟨-, hids, -⟩ | ⟨-, hids, -⟩ <;> rw [hids]

/-- A generator that does not run is left as it is by a stop. -/
theorem stop_of_not_running {ids : TransactionIds} (store : MarkStore) (h : ids.running = false) :
    ids.stop store = (.ok (), ids, store) := by
  rw [stop, if_neg (by simp [h])]

/-- Giving a generator up that does not run writes nothing. -/
theorem discard_of_not_running {ids : TransactionIds} (store : MarkStore) (h : ids.running = false) :
    ids.discard store = store := by
  rw [discard, stop_of_not_running store h]

/-- A generator that runs is stopped and flushed. -/
theorem stop_of_running {ids : TransactionIds} (store : MarkStore) (h : ids.running = true) :
    (ids.stop store).2 = ({ ids with running := false }.flush store).2 ∧
      ((ids.stop store).1 = .ok () ↔ ∃ wrote, ({ ids with running := false }.flush store).1 = .ok wrote) := by
  rw [stop, if_pos h]
  cases hflush : { ids with running := false }.flush store with
  | mk outcome after =>
    cases outcome <;> simp

/-- A stop keeps the last id. -/
theorem stop_lastIssued (ids : TransactionIds) (store : MarkStore) :
    (ids.stop store).2.1.lastIssued = ids.lastIssued := by
  cases h : ids.running with
  | false => rw [stop_of_not_running store h]
  | true => rw [(stop_of_running store h).1, flush_lastIssued]

/-- After a stop a generator does not run. -/
theorem stop_running (ids : TransactionIds) (store : MarkStore) :
    (ids.stop store).2.1.running = false := by
  cases h : ids.running with
  | false => rw [stop_of_not_running store h, h]
  | true =>
    rw [(stop_of_running store h).1]
    rcases ({ ids with running := false } : TransactionIds).flush_cases store with
      ⟨-, hids, -⟩ | ⟨-, hids, -⟩ <;> rw [hids]

/-- A stop of a generator whose flushed id is the durable mark makes the last id durable, unless
it is refused. -/
theorem stop_durable {ids : TransactionIds} {store : MarkStore} (hrunning : ids.running = true)
    (hflushed : ids.flushed = store.durable) (hok : (ids.stop store).1 = .ok ()) :
    (ids.stop store).2.2.durable = ids.lastIssued := by
  obtain ⟨hstop, hiff⟩ := stop_of_running store hrunning
  obtain ⟨wrote, hwrote⟩ := hiff.mp hok
  rw [hstop]
  rcases ({ ids with running := false } : TransactionIds).flush_cases store with
    ⟨-, -, hdurable⟩ | ⟨⟨fault, hfault⟩, -⟩
  · exact hdurable hflushed
  · rw [hwrote] at hfault
    exact absurd hfault (by simp)

/-- A stop that is refused changes no row and stops a generator whose last id was not flushed. -/
theorem stop_refused {ids : TransactionIds} {store : MarkStore} {fault : Error}
    (h : (ids.stop store).1 = .error fault) :
    ids.lastIssued ≠ ids.flushed ∧ (ids.stop store).2.2.rows = store.rows := by
  cases hrunning : ids.running with
  | false =>
    rw [stop_of_not_running store hrunning] at h
    exact absurd h (by simp)
  | true =>
    obtain ⟨hstop, hiff⟩ := stop_of_running store hrunning
    rw [hstop]
    rcases ({ ids with running := false } : TransactionIds).flush_cases store with
      ⟨hok, -⟩ | ⟨⟨fault', hfault⟩, -, hrows⟩
    · exact absurd ((hiff.mpr hok).symm.trans h) (by simp)
    · have hne := lastIssued_ne_of_flush_error hfault
      exact ⟨hne, hrows⟩

/-- Ticks make the last id durable or change nothing but the refusals that are left. -/
theorem tick_cases (ticks : Nat) (ids : TransactionIds) (store : MarkStore) :
    ((tick ticks ids store).1 = { ids with flushed := ids.lastIssued } ∧
      (ids.flushed = store.durable → (tick ticks ids store).2.durable = ids.lastIssued)) ∨
    (tick ticks ids store).1 = ids ∧ (tick ticks ids store).2.rows = store.rows := by
  induction ticks generalizing store with
  | zero => exact Or.inr ⟨rfl, rfl⟩
  | succ ticks ih =>
    have hflush := ids.flush_cases store
    rw [tick]
    cases h : ids.flush store with
    | mk outcome rest =>
      obtain ⟨after, marked⟩ := rest
      rw [h] at hflush
      cases outcome with
      | ok wrote =>
        rcases hflush with ⟨-, hids, hdurable⟩ | ⟨⟨fault, hfault⟩, -⟩
        · exact Or.inl ⟨hids, hdurable⟩
        · exact absurd hfault (by simp)
      | error fault =>
        rcases hflush with ⟨⟨wrote, hwrote⟩, -⟩ | ⟨-, hids, hrows⟩
        · exact absurd hwrote (by simp)
        · obtain rfl : after = ids := hids
          have hsame : marked.rows = store.rows := hrows
          rcases ih marked with ⟨hafter, hdurable⟩ | ⟨hafter, hrest⟩
          · exact Or.inl ⟨hafter, fun hflushed =>
              hdurable (hflushed.trans (MarkStore.durable_congr hsame).symm)⟩
          · exact Or.inr ⟨hafter, hrest.trans hsame⟩

/-- The flusher of a generator that does not run does not tick. -/
theorem settle_of_not_running {ids : TransactionIds} (store : MarkStore) (duration : Nat)
    (h : ids.running = false) : ids.settle store duration = (ids, store) := by
  rw [settle, if_neg (by simp [h])]

/-- A mark that is taken over raises the last id to it. -/
@[simp] theorem withMark_lastIssued (ids : TransactionIds) (mark : UInt64) :
    (ids.withMark mark).lastIssued = max ids.lastIssued mark := rfl

/-- Taking over a mark does not set a generator to work. -/
@[simp] theorem withMark_running (ids : TransactionIds) (mark : UInt64) :
    (ids.withMark mark).running = ids.running := rfl

/-- A mark that was taken over is not above the last id. -/
theorem le_withMark_lastIssued (ids : TransactionIds) (mark : UInt64) :
    mark ≤ (ids.withMark mark).lastIssued := by
  rw [withMark_lastIssued, UInt64.le_iff_toNat_le, toNat_max]
  exact Nat.le_max_right _ _

/-- Taking over a mark does not lower the last id. -/
theorem lastIssued_le_withMark (ids : TransactionIds) (mark : UInt64) :
    ids.lastIssued ≤ (ids.withMark mark).lastIssued := by
  rw [withMark_lastIssued, UInt64.le_iff_toNat_le, toNat_max]
  exact Nat.le_max_left _ _

/-- A mark that is not above the last id leaves the last id as it is. -/
theorem withMark_lastIssued_of_le {ids : TransactionIds} {mark : UInt64}
    (h : mark ≤ ids.lastIssued) : (ids.withMark mark).lastIssued = ids.lastIssued := by
  rw [withMark_lastIssued, ← UInt64.toNat_inj, toNat_max]
  exact Nat.max_eq_left (UInt64.le_iff_toNat_le.mp h)

/-- A last id that is not above a mark is raised to the mark. -/
theorem withMark_lastIssued_of_ge {ids : TransactionIds} {mark : UInt64}
    (h : ids.lastIssued ≤ mark) : (ids.withMark mark).lastIssued = mark := by
  rw [withMark_lastIssued, ← UInt64.toNat_inj, toNat_max]
  exact Nat.max_eq_right (UInt64.le_iff_toNat_le.mp h)

/-- What a generator loads is the durable mark, which can then be read from the rows. -/
theorem load_ok {ids loaded : TransactionIds} {store : MarkStore} {clock after : Clock}
    (h : ids.load store.rows clock = (.ok loaded, after)) :
    loaded = ids.withMark store.durable ∧ ∃ found, MarkStore.mark? store.rows = .ok found := by
  rw [load] at h
  cases hmark : MarkStore.mark? store.rows with
  | error fault =>
    rw [hmark] at h
    exact absurd (congrArg Prod.fst h) (by simp)
  | ok found =>
    have hdurable : store.durable = found.getD 0 := by rw [MarkStore.durable, hmark]
    rw [hmark] at h
    dsimp only at h
    split at h
    · exact absurd (congrArg Prod.fst h) (by simp)
    · rw [hdurable]
      exact ⟨(Except.ok.inj (congrArg Prod.fst h)).symm, found, rfl⟩

/-- Loading the mark reads the clock on. -/
theorem load_script (ids : TransactionIds) (rows : Rows) (clock : Clock) :
    (ids.load rows clock).2.script = clock.script := by
  rw [load]
  cases MarkStore.mark? rows with
  | error fault => rfl
  | ok found =>
    have hscript := ids.timing.await_script (millis (found.getD 0)) ids.timing.polls clock
    dsimp only
    by_cases hzero : found.getD 0 = 0
    · rw [if_pos hzero]
    · rw [if_neg hzero]
      cases hwait : ids.timing.await (millis (found.getD 0)) ids.timing.polls clock with
      | mk outcome after =>
        rw [hwait] at hscript
        cases outcome <;> exact hscript

/-- A generator that runs is left as it is by a start. -/
theorem start_of_running {ids : TransactionIds} (rows : Rows) (clock : Clock)
    (refusal : Option String) (h : ids.running = true) :
    ids.start rows clock refusal = (.ok (), ids, clock) := by
  rw [start, if_pos h]

/-- A start that cannot load the mark leaves the generator as it is. -/
theorem start_of_load_error {ids : TransactionIds} {rows : Rows} {clock after : Clock}
    {fault : Error} (refusal : Option String) (hrest : ids.running = false)
    (h : ids.load rows clock = (.error fault, after)) :
    ids.start rows clock refusal = (.error fault, ids, after) := by
  rw [start, if_neg (by simp [hrest]), h]

/-- A start that has loaded the mark sets the generator to work, unless its thread is refused. -/
theorem start_of_load_ok {ids loaded : TransactionIds} {rows : Rows} {clock after : Clock}
    (refusal : Option String) (hrest : ids.running = false)
    (h : ids.load rows clock = (.ok loaded, after)) :
    ids.start rows clock refusal =
      match refusal with
      | none => (.ok (), { loaded with running := true }, after)
      | some reason => (.error (.storage reason), loaded, after) := by
  have hidle : ¬ ids.running = true := by simp [hrest]
  cases refusal with
  | none => rw [start, if_neg hidle, h]
  | some reason => rw [start, if_neg hidle, h]

/-- A start of a generator that does not run loads the durable mark and sets the generator to work,
or it fails: then the generator is left as it is, or its thread was refused after it had loaded the
mark. -/
theorem start_cases {ids : TransactionIds} (store : MarkStore) (clock : Clock)
    (refusal : Option String) (h : ids.running = false) :
    ((ids.start store.rows clock refusal).1 = .ok () ∧ refusal = none ∧
      (ids.start store.rows clock refusal).2.1 =
        { ids.withMark store.durable with running := true }) ∨
    ((∃ fault, (ids.start store.rows clock refusal).1 = .error fault) ∧
      (ids.start store.rows clock refusal).2.1 = ids) ∨
    ∃ reason, refusal = some reason ∧
      (ids.start store.rows clock refusal).1 = .error (.storage reason) ∧
      (ids.start store.rows clock refusal).2.1 = ids.withMark store.durable := by
  cases hload : ids.load store.rows clock with
  | mk outcome after =>
    cases outcome with
    | error fault =>
      rw [start_of_load_error refusal h hload]
      exact Or.inr (Or.inl ⟨⟨fault, rfl⟩, rfl⟩)
    | ok loaded =>
      rw [start_of_load_ok refusal h hload, (load_ok hload).1]
      cases refusal with
      | none => exact Or.inl ⟨rfl, rfl, rfl⟩
      | some reason => exact Or.inr (Or.inr ⟨reason, rfl, rfl, rfl⟩)

/-- A start reads the clock on. -/
theorem start_script (ids : TransactionIds) (rows : Rows) (clock : Clock)
    (refusal : Option String) : (ids.start rows clock refusal).2.2.script = clock.script := by
  cases h : ids.running with
  | true => rw [start_of_running rows clock refusal h]
  | false =>
    have hscript := ids.load_script rows clock
    cases hload : ids.load rows clock with
    | mk outcome after =>
      rw [hload] at hscript
      cases outcome with
      | error fault => rw [start_of_load_error refusal h hload, hscript]
      | ok loaded =>
        rw [start_of_load_ok refusal h hload]
        cases refusal <;> exact hscript

end TransactionIds

end EntityCatalog
