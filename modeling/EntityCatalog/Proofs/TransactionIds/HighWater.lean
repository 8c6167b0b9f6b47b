import EntityCatalog.Proofs.Rows.Batch
import EntityCatalog.Proofs.TransactionIds.Succession

/-!
# The durable mark is a high-water mark

A flush is skipped when the last id is the one that was flushed last. That is right because the
flushed id of a generator that runs is the durable mark: a start takes it over from the rows, a write
changes both or neither, and nobody else writes the mark row. The mark then never goes back, for what
is written over it is the last id of a generator that began with it.
-/

namespace EntityCatalog

namespace MarkStore

/-- The store holds the given mark. A store without a mark row holds zero, and one with a mark row
that cannot be read holds none. -/
def Holds (store : MarkStore) (mark : UInt64) : Prop :=
  ∃ found, mark? store.rows = .ok found ∧ found.getD 0 = mark

/-- A mark that was written is held. -/
theorem holds_insert (rows : Rows) (mark : UInt64) (refusals : Nat) :
    Holds ⟨rows.insert Layout.markKey (wordBytes mark), refusals⟩ mark :=
  ⟨some mark, by simp [mark?], rfl⟩

/-- A mark that can be read is held. -/
theorem holds_durable {store : MarkStore} {found : Option UInt64}
    (h : mark? store.rows = .ok found) : store.Holds store.durable := by
  refine ⟨found, h, ?_⟩
  rw [durable, h]

/-- The mark that is held is the durable mark. -/
theorem Holds.durable_eq {store : MarkStore} {mark : UInt64} (h : store.Holds mark) :
    store.durable = mark := by
  obtain ⟨found, hfound, hmark⟩ := h
  rw [durable, hfound]
  exact hmark

/-- The mark that is held is read from the mark row alone. -/
theorem Holds.of_get? {store store' : MarkStore} {mark : UInt64} (h : store.Holds mark)
    (hrow : store'.rows.get? Layout.markKey = store.rows.get? Layout.markKey) : store'.Holds mark := by
  obtain ⟨found, hfound, hmark⟩ := h
  refine ⟨found, ?_, hmark⟩
  rw [mark?, hrow]
  exact hfound

/-- Stores with the same rows hold the same mark. -/
theorem Holds.congr {store store' : MarkStore} {mark : UInt64} (h : store.Holds mark)
    (hrows : store'.rows = store.rows) : store'.Holds mark :=
  h.of_get? (congrArg (·.get? Layout.markKey) hrows)

/-- A store holds one mark at most. -/
theorem Holds.unique {store : MarkStore} {mark mark' : UInt64} (h : store.Holds mark)
    (h' : store.Holds mark') : mark = mark' :=
  h.durable_eq.symm.trans h'.durable_eq

end MarkStore

namespace TransactionIds

/-- A flush is skipped exactly when the last id is the one that was flushed. -/
theorem flush_eq_ok_false_iff (ids : TransactionIds) (store : MarkStore) :
    (ids.flush store).1 = .ok false ↔ ids.lastIssued = ids.flushed := by
  rw [flush]
  split
  · simp [*]
  · cases store.write ids.lastIssued with
    | mk outcome after => cases outcome <;> simp [*]

/-- A flush that succeeds leaves the last id as the mark, whether it wrote it or found it there. -/
theorem holds_of_flush {ids : TransactionIds} {store : MarkStore} (h : store.Holds ids.flushed)
    {wrote : Bool} (hok : (ids.flush store).1 = .ok wrote) :
    (ids.flush store).2.2.Holds ids.lastIssued := by
  rw [flush] at hok ⊢
  split
  · rename_i hsame
    rw [hsame]
    exact h
  · rename_i hdiffers
    rw [if_neg hdiffers] at hok
    obtain ⟨rows, refusals⟩ := store
    cases refusals with
    | zero => exact MarkStore.holds_insert rows ids.lastIssued 0
    | succ refusals => exact absurd hok (by simp [MarkStore.write])

/-- A flush that fails leaves the generator and every row as they were. -/
theorem flush_of_error {ids : TransactionIds} {store : MarkStore} {fault : Error}
    (h : (ids.flush store).1 = .error fault) :
    (ids.flush store).2.1 = ids ∧ (ids.flush store).2.2.rows = store.rows := by
  rcases ids.flush_cases store with ⟨⟨wrote, hok⟩, -⟩ | ⟨-, hkept⟩
  · exact absurd (hok.symm.trans h) (by simp)
  · exact hkept

/-- What every flush of a generator at work owes to the mark. -/
structure FlushSound (ids : TransactionIds) (store : MarkStore) : Prop where
  skipped : (ids.flush store).1 = .ok false ↔ store.Holds ids.lastIssued
  covers : ∀ wrote, (ids.flush store).1 = .ok wrote → (ids.flush store).2.2.Holds ids.lastIssued
  refused : ∀ fault, (ids.flush store).1 = .error fault →
    (ids.flush store).2.1 = ids ∧ (ids.flush store).2.2.rows = store.rows ∧
      ((ids.flush store).2.1.flush (ids.flush store).2.2).1 ≠ .ok false

/-- A flush is sound when the flushed id is the mark. -/
theorem flushSound_of_holds {ids : TransactionIds} {store : MarkStore}
    (h : store.Holds ids.flushed) : ids.FlushSound store where
  skipped := by
    rw [flush_eq_ok_false_iff]
    exact ⟨fun hsame => hsame ▸ h, fun hlast => hlast.unique h⟩
  covers _ hok := holds_of_flush h hok
  refused fault hfault := by
    obtain ⟨hids, hrows⟩ := flush_of_error hfault
    refine ⟨hids, hrows, fun hskipped => ?_⟩
    rw [hids, flush_eq_ok_false_iff] at hskipped
    exact lastIssued_ne_of_flush_error hfault hskipped

end TransactionIds

namespace MarkStore

/-- The second store holds at least the mark of the first, if that holds one. -/
def Raised (store after : MarkStore) : Prop :=
  ∀ mark, store.Holds mark → ∃ later, after.Holds later ∧ mark ≤ later

/-- A store keeps its mark as long as the mark row stays. -/
theorem Raised.of_get? {store after : MarkStore}
    (hrow : after.rows.get? Layout.markKey = store.rows.get? Layout.markKey) : store.Raised after :=
  fun mark h => ⟨mark, h.of_get? hrow, UInt64.le_refl mark⟩

/-- A store keeps its mark as long as its rows stay. -/
theorem Raised.congr {store after : MarkStore} (hrows : after.rows = store.rows) :
    store.Raised after :=
  .of_get? (congrArg (·.get? Layout.markKey) hrows)

/-- A mark that is raised twice is raised. -/
theorem Raised.trans {store mid after : MarkStore} (h : store.Raised mid) (h' : mid.Raised after) :
    store.Raised after := by
  intro mark hmark
  obtain ⟨between, hbetween, hle⟩ := h mark hmark
  obtain ⟨later, hlater, hle'⟩ := h' between hbetween
  exact ⟨later, hlater, UInt64.le_trans hle hle'⟩

end MarkStore

namespace Succession

/-- What may happen to a store on which generators work: an event of a generator, or a batch of
others. -/
inductive Incident where
  | own (event : Event)
  | foreign (changes : List Change)

/-- Whether a clock that is set is in time, and whether others leave the mark row alone. -/
def Incident.Proper : Incident → Prop
  | own event => event.InTime
  | foreign changes => ∀ change ∈ changes, ¬ change.Touches Layout.markKey

/-- What an incident leaves. -/
def befall : Incident → Succession → Succession
  | .own event, state => (state.step event).2
  | .foreign changes, state =>
    { state with store := { state.store with rows := (state.store.rows.batch changes).2 } }

/-- What a list of incidents leaves, one after another. -/
def befallAll : List Incident → Succession → Succession
  | [], state => state
  | incident :: rest, state => befallAll rest (befall incident state)

/-- A run goes on where another has ended. -/
theorem befallAll_append (first second : List Incident) (state : Succession) :
    befallAll (first ++ second) state = befallAll second (befallAll first state) := by
  induction first generalizing state with
  | nil => rfl
  | cons incident rest ih => exact ih (befall incident state)

/-- Whether the last id of a generator is never the greatest word in the course of a run. -/
def Roomy : List Incident → Succession → Prop
  | [], state => state.ids.lastIssued ≠ TransactionIds.lastWord
  | incident :: rest, state =>
    state.ids.lastIssued ≠ TransactionIds.lastWord ∧ Roomy rest (befall incident state)

instance decidableRoomy : (incidents : List Incident) → (state : Succession) →
    Decidable (Roomy incidents state)
  | [], state => inferInstanceAs (Decidable (state.ids.lastIssued ≠ TransactionIds.lastWord))
  | incident :: rest, state =>
    have := decidableRoomy rest (befall incident state)
    inferInstanceAs (Decidable (state.ids.lastIssued ≠ TransactionIds.lastWord ∧ _))

/-- A run with room has room up to any of its incidents and from there on. -/
theorem roomy_append {first second : List Incident} {state : Succession}
    (h : Roomy (first ++ second) state) :
    Roomy first state ∧ Roomy second (befallAll first state) := by
  induction first generalizing state with
  | nil =>
    refine ⟨?_, h⟩
    cases second with
    | nil => exact h
    | cons incident rest => exact h.1
  | cons incident rest ih =>
    obtain ⟨hfirst, hsecond⟩ := ih h.2
    exact ⟨⟨h.1, hfirst⟩, hsecond⟩

/-- A generator at work knows the mark, and its last id is not below it. -/
structure Abreast (state : Succession) : Prop where
  flushed : state.ids.running = true → state.store.Holds state.ids.flushed
  flushed_le : state.ids.running = true → state.ids.flushed ≤ state.ids.lastIssued
  inTime : state.clock.InTime

namespace Abreast

variable {state : Succession}

/-- A flush does not lower the mark of a generator at work. -/
theorem raised_flush (h : state.Abreast) (hrunning : state.ids.running = true) (running : Bool) :
    state.store.Raised ({ state.ids with running }.flush state.store).2.2 := by
  intro mark hmark
  obtain rfl := (h.flushed hrunning).unique hmark
  cases hflush : ({ state.ids with running }.flush state.store).1 with
  | ok wrote =>
    exact ⟨state.ids.lastIssued, TransactionIds.holds_of_flush (h.flushed hrunning) hflush,
      h.flushed_le hrunning⟩
  | error fault =>
    exact ⟨_, hmark.congr (TransactionIds.flush_of_error hflush).2, UInt64.le_refl _⟩

/-- A stop does not lower the mark. -/
theorem raised_stop (h : state.Abreast) : state.store.Raised (state.ids.stop state.store).2.2 := by
  cases hrunning : state.ids.running with
  | false =>
    rw [TransactionIds.stop_of_not_running state.store hrunning]
    exact .congr rfl
  | true =>
    rw [(TransactionIds.stop_of_running state.store hrunning).1]
    exact h.raised_flush hrunning false

/-- A generator that does not run need not know the mark. -/
theorem of_rest {after : Succession} (hrest : after.ids.running = false)
    (hinTime : after.clock.InTime) : after.Abreast := by
  refine ⟨fun hwork => ?_, fun hwork => ?_, hinTime⟩ <;>
  · rw [hrest] at hwork
    exact absurd hwork (by simp)

/-- A start takes the mark over, or leaves the generator as it is. -/
theorem start (h : state.Abreast) (refusal : Option String) :
    (state.step (.start refusal)).2.Abreast := by
  have hinTime : (state.step (.start refusal)).2.clock.InTime := step_inTime h.inTime trivial
  have hstore : (state.step (.start refusal)).2.store = state.store := rfl
  rcases step_start_cases state refusal with
    ⟨-, hids⟩ | ⟨hrest, ⟨found, hfound⟩, ⟨-, hids⟩ | ⟨-, hids⟩⟩
  · refine ⟨?_, ?_, hinTime⟩
    · rw [hids, hstore]
      exact h.flushed
    · rw [hids]
      exact h.flushed_le
  · refine ⟨fun _ => ?_, fun _ => ?_, hinTime⟩
    · rw [hids, hstore]
      exact MarkStore.holds_durable hfound
    · rw [hids]
      exact state.ids.le_withMark_lastIssued state.store.durable
  · exact .of_rest (by rw [hids]; exact hrest) hinTime

/-- An id that is given is greater than the last one, and no mark is written. -/
theorem next (h : state.Abreast) (hlast : state.ids.lastIssued ≠ TransactionIds.lastWord) :
    (state.step .next).2.Abreast := by
  have hinTime : (state.step .next).2.clock.InTime := step_inTime h.inTime trivial
  have hstore : (state.step .next).2.store = state.store := rfl
  rcases state.ids.next_cases h.inTime hlast with
    ⟨id, -, hrunning, hlt, hids⟩ | ⟨-, -, hids⟩
  · have hafter : (state.step .next).2.ids = { state.ids with lastIssued := id } := hids
    refine ⟨fun _ => ?_, fun _ => ?_, hinTime⟩
    · rw [hafter, hstore]
      exact h.flushed hrunning
    · rw [hafter]
      exact UInt64.le_trans (h.flushed_le hrunning) (UInt64.le_of_lt hlt)
  · have hafter : (state.step .next).2.ids = state.ids := hids
    refine ⟨?_, ?_, hinTime⟩
    · rw [hafter, hstore]
      exact h.flushed
    · rw [hafter]
      exact h.flushed_le

/-- A tick writes the last id over the mark and notes it, or does neither. -/
theorem tick (h : state.Abreast) : (state.step .tick).2.Abreast := by
  have hinTime : (state.step .tick).2.clock.InTime := step_inTime h.inTime trivial
  cases hrunning : state.ids.running with
  | false =>
    have htick : state.step .tick = (.quiet, state) := by simp [step, hrunning]
    rw [htick]
    exact h
  | true =>
    have hids : (state.step .tick).2.ids = (state.ids.flush state.store).2.1 := by
      simp [step, hrunning]
    have hstore : (state.step .tick).2.store = (state.ids.flush state.store).2.2 := by
      simp [step, hrunning]
    rcases state.ids.flush_cases state.store with ⟨⟨wrote, hok⟩, hafter, -⟩ | ⟨-, hafter, hrows⟩
    · refine ⟨fun _ => ?_, fun _ => ?_, hinTime⟩
      · rw [hids, hstore, hafter]
        exact TransactionIds.holds_of_flush (h.flushed hrunning) hok
      · rw [hids, hafter]
        exact UInt64.le_refl _
    · refine ⟨fun _ => ?_, fun _ => ?_, hinTime⟩
      · rw [hids, hstore, hafter]
        exact (h.flushed hrunning).congr hrows
      · rw [hids, hafter]
        exact h.flushed_le hrunning

/-- An event keeps a generator abreast of the mark. -/
theorem step (h : state.Abreast) (hlast : state.ids.lastIssued ≠ TransactionIds.lastWord)
    {event : Event} (hevent : event.InTime) : (state.step event).2.Abreast := by
  cases event with
  | start refusal => exact h.start refusal
  | next => exact h.next hlast
  | stop => exact .of_rest (state.ids.stop_running state.store) h.inTime
  | tick => exact h.tick
  | replace timing => exact .of_rest rfl h.inTime
  | refuse writes => exact ⟨fun hrunning => (h.flushed hrunning).congr rfl, h.flushed_le, h.inTime⟩
  | setClock clock => exact ⟨h.flushed, h.flushed_le, hevent⟩

/-- An event does not lower the mark. -/
theorem raised_step (h : state.Abreast) (event : Event) :
    state.store.Raised (state.step event).2.store := by
  cases event with
  | stop => exact h.raised_stop
  | replace timing => exact h.raised_stop
  | tick =>
    cases hrunning : state.ids.running with
    | false => exact .congr (by simp [Succession.step, hrunning])
    | true =>
      have hstore : (state.step .tick).2.store = (state.ids.flush state.store).2.2 := by
        simp [Succession.step, hrunning]
      rw [hstore]
      exact h.raised_flush hrunning state.ids.running
  | _ => exact .congr rfl

/-- An incident keeps a generator abreast of the mark and does not lower the mark. -/
theorem befall (h : state.Abreast) (hlast : state.ids.lastIssued ≠ TransactionIds.lastWord)
    {incident : Incident} (hproper : incident.Proper) :
    (Succession.befall incident state).Abreast ∧
      state.store.Raised (Succession.befall incident state).store := by
  cases incident with
  | own event => exact ⟨h.step hlast hproper, h.raised_step event⟩
  | foreign changes =>
    have hrow := Rows.get?_batch_of_not_touches state.store.rows hproper
    exact ⟨⟨fun hrunning => (h.flushed hrunning).of_get? hrow, h.flushed_le, h.inTime⟩, .of_get? hrow⟩

/-- A run keeps a generator abreast of the mark and does not lower the mark. -/
theorem befallAll {incidents : List Incident} (h : state.Abreast)
    (hproper : ∀ incident ∈ incidents, incident.Proper) (hroom : Roomy incidents state) :
    (Succession.befallAll incidents state).Abreast ∧
      state.store.Raised (Succession.befallAll incidents state).store := by
  induction incidents generalizing state with
  | nil => exact ⟨h, .congr rfl⟩
  | cons incident rest ih =>
    obtain ⟨hfirst, hraised⟩ := h.befall hroom.1 (hproper incident List.mem_cons_self)
    obtain ⟨hrest, hraised'⟩ :=
      ih hfirst (fun other hother => hproper other (List.mem_cons_of_mem _ hother)) hroom.2
    exact ⟨hrest, hraised.trans hraised'⟩

/-- A stop that succeeds leaves the last id as the mark. -/
theorem holds_of_stop (h : state.Abreast) (hrunning : state.ids.running = true)
    (hok : (state.ids.stop state.store).1 = .ok ()) :
    (state.ids.stop state.store).2.2.Holds state.ids.lastIssued := by
  obtain ⟨hstop, hiff⟩ := TransactionIds.stop_of_running state.store hrunning
  obtain ⟨wrote, hwrote⟩ := hiff.mp hok
  rw [hstop]
  exact TransactionIds.holds_of_flush (h.flushed hrunning) hwrote

/-- A stop that is refused puts the generator to rest and changes nothing else. -/
theorem stop_of_error {fault : Error} (hrunning : state.ids.running = true)
    (hfault : (state.ids.stop state.store).1 = .error fault) :
    (state.ids.stop state.store).2.1 = { state.ids with running := false } ∧
      (state.ids.stop state.store).2.2.rows = state.store.rows := by
  obtain ⟨hstop, hiff⟩ := TransactionIds.stop_of_running state.store hrunning
  rw [hstop]
  cases hflush : ({ state.ids with running := false }.flush state.store).1 with
  | ok wrote => exact absurd ((hiff.mpr ⟨wrote, hflush⟩).symm.trans hfault) (by simp)
  | error fault' => exact TransactionIds.flush_of_error hflush

end Abreast

/-- What a stop of a generator at work owes to the mark. A stop that is refused leaves the last id to
be flushed when the generator runs again. -/
structure StopSound (state : Succession) : Prop where
  covers : (state.step .stop).1 = .stopped (.ok ()) →
    (state.step .stop).2.store.Holds state.ids.lastIssued
  refused : ∀ fault, (state.step .stop).1 = .stopped (.error fault) →
    (state.step .stop).2.ids = { state.ids with running := false } ∧
      (state.step .stop).2.store.rows = state.store.rows
  retried : ∀ fault clock refusal, (state.step .stop).1 = .stopped (.error fault) →
    let again := ({ (state.step .stop).2 with clock }.step (.start refusal)).2
    again.ids.running = true → (again.ids.flush again.store).1 ≠ .ok false

/-- A stop of a generator that is abreast of the mark is sound. -/
theorem Abreast.stopSound {state : Succession} (h : state.Abreast)
    (hrunning : state.ids.running = true) : state.StopSound where
  covers hok := h.holds_of_stop hrunning (Report.stopped.inj hok)
  refused _ hfault := Abreast.stop_of_error hrunning (Report.stopped.inj hfault)
  retried fault clock refusal hfault := by
    intro again hwork hskipped
    have hrefused := Report.stopped.inj hfault
    obtain ⟨hids, hrows⟩ := Abreast.stop_of_error hrunning hrefused
    have hdurable : (state.ids.stop state.store).2.2.durable = state.ids.flushed := by
      rw [MarkStore.durable_congr hrows, (h.flushed hrunning).durable_eq]
    have hrest := state.ids.stop_running state.store
    have hlast := (TransactionIds.stop_refused hrefused).1
    rw [TransactionIds.flush_eq_ok_false_iff] at hskipped
    -- The mark that is loaded is the one below the last id, which the generator has kept.
    rcases TransactionIds.start_cases (state.ids.stop state.store).2.2 clock refusal hrest with
      ⟨-, -, hstarted⟩ | ⟨-, hstarted⟩ | ⟨reason, -, -, hstarted⟩
    · have hagain : again.ids = _ := hstarted
      rw [hagain, hids, hdurable] at hskipped
      exact hlast ((TransactionIds.withMark_lastIssued_of_le (h.flushed_le hrunning)).symm.trans
        hskipped)
    · have hagain : again.ids = _ := hstarted
      rw [hagain, hrest] at hwork
      exact absurd hwork (by simp)
    · have hagain : again.ids = _ := hstarted
      rw [hagain, TransactionIds.withMark_running, hrest] at hwork
      exact absurd hwork (by simp)

/-- What a start that fails leaves. The store and the running state stay. The generator stays as a
whole, unless its thread was refused: then it has taken over the mark. -/
structure StartSound (state : Succession) (refusal : Option String) (fault : Error) : Prop where
  store : (state.step (.start refusal)).2.store = state.store
  running : (state.step (.start refusal)).2.ids.running = state.ids.running
  ids : (state.step (.start refusal)).2.ids = state.ids ∨
    ∃ reason, refusal = some reason ∧ fault = .storage reason ∧
      (state.step (.start refusal)).2.ids = state.ids.withMark state.store.durable

/-- A start that fails is sound. -/
theorem startSound_of_error {state : Succession} {refusal : Option String} {fault : Error}
    (h : (state.ids.start state.store.rows state.clock refusal).1 = .error fault) :
    state.StartSound refusal fault := by
  have hids : (state.step (.start refusal)).2.ids = state.ids ∨
      ∃ reason, refusal = some reason ∧ fault = .storage reason ∧
        (state.step (.start refusal)).2.ids = state.ids.withMark state.store.durable := by
    cases hrunning : state.ids.running with
    | true =>
      rw [TransactionIds.start_of_running state.store.rows state.clock refusal hrunning] at h
      exact absurd h (by simp)
    | false =>
      rcases TransactionIds.start_cases state.store state.clock refusal hrunning with
        ⟨hok, -⟩ | ⟨-, hkept⟩ | ⟨reason, hreason, hrefused, hloaded⟩
      · exact absurd (hok.symm.trans h) (by simp)
      · exact Or.inl hkept
      · exact Or.inr ⟨reason, hreason, (Except.error.inj (hrefused.symm.trans h)).symm, hloaded⟩
  refine ⟨rfl, ?_, hids⟩
  rcases hids with hkept | ⟨reason, -, -, hloaded⟩
  · rw [hkept]
  · rw [hloaded, TransactionIds.withMark_running]

/-- The first generator does not run. -/
theorem abreast_fresh (timing : Timing) (store : MarkStore) {clock : Clock} (h : clock.InTime) :
    (fresh timing store clock).Abreast :=
  .of_rest rfl h

/-- A run in which a tick and a stop are refused while others write, and the generator is started
again, at first without a thread, and then replaced. -/
def refusedIncidents : List Incident :=
  [.own (.start none), .own .next, .own (.refuse 1), .own .tick, .foreign [.put [0x6d] [0x01]],
    .own .next, .own (.refuse 1), .own .stop, .own (.setClock (.constant 990)),
    .own (.start (some "no thread")), .own (.start none), .own .tick, .own (.replace ⟨50, 10, 0⟩),
    .own (.start none), .own .next]

end Succession

end EntityCatalog
