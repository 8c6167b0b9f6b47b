import EntityCatalog.Proofs.TransactionIds.Lifecycle

/-!
# Generators in succession

Generators work on one store one after another. Each may be started and stopped at will, its
flusher ticks, writes of the mark and the thread of a flusher are refused at any time, and the clock
is set to any script. A run keeps a record of what happened, with the number of the generator that
was at work.

The ids of one generator grow whatever fails, because the last id never goes back. The ids of all
generators grow as long as the last flush of each was not refused: the invariant is that the ids
given so far are covered by the last id of a generator at work, whose flushed id is the durable
mark, and by the durable mark when none is at work.
-/

namespace EntityCatalog

/-- The generator at work on a store, with its clock and the number of generators before it. -/
structure Succession where
  number : Nat
  ids : TransactionIds
  store : MarkStore
  clock : Clock

namespace Succession

/-- What may happen to a generator and around it. The system may refuse a start its thread and tell
why. -/
inductive Event where
  | start (refusal : Option String)
  | next
  | stop
  | tick
  | replace (timing : Timing)
  | refuse (writes : Nat)
  | setClock (clock : Clock)

/-- What is recorded of an event: a mark that was loaded, by a generator that then ran or that
stalled because its thread was refused, an id that was given, and how the last flush of a generator
went that was stopped or replaced. -/
inductive Report where
  | loaded (mark : UInt64)
  | stalled (mark : UInt64)
  | issued (id : UInt64)
  | stopped (outcome : Except Error Unit)
  | replaced (outcome : Except Error Unit)
  | quiet

/-- The report of a start: the mark that a generator loaded that was not at work. -/
def startReport (state : Succession) (refusal : Option String) : Report :=
  if state.ids.running then .quiet
  else
    match (state.ids.load state.store.rows state.clock).1, refusal with
    | .error _, _ => .quiet
    | .ok _, none => .loaded state.store.durable
    | .ok _, some _ => .stalled state.store.durable

/-- The report of a request for an id. -/
def nextReport : Except Error UInt64 → Report
  | .ok id => .issued id
  | .error _ => .quiet

/-- One event: its report, and what it leaves. -/
def step (state : Succession) : Event → Report × Succession
  | .start refusal =>
    match state.ids.start state.store.rows state.clock refusal with
    | (_, ids, clock) => (state.startReport refusal, { state with ids, clock })
  | .next =>
    match state.ids.next state.clock with
    | (outcome, ids, clock) => (nextReport outcome, { state with ids, clock })
  | .stop =>
    match state.ids.stop state.store with
    | (outcome, ids, store) => (.stopped outcome, { state with ids, store })
  | .tick =>
    if state.ids.running then
      match state.ids.flush state.store with
      | (_, ids, store) => (.quiet, { state with ids, store })
    else (.quiet, state)
  | .replace timing =>
    (.replaced (state.ids.stop state.store).1,
      { state with
        number := state.number + 1
        ids := .create timing
        store := state.ids.discard state.store })
  | .refuse writes => (.quiet, { state with store := { state.store with refusals := writes } })
  | .setClock clock => (.quiet, { state with clock })

/-- A run of events: the reports with the numbers of the generators, and what the run leaves. -/
def run : List Event → Succession → List (Nat × Report) × Succession
  | [], state => ([], state)
  | event :: rest, state =>
    ((state.number, (state.step event).1) :: (run rest (state.step event).2).1,
      (run rest (state.step event).2).2)

/-- Whether the clock that an event sets is in time. -/
def Event.InTime : Event → Prop
  | setClock clock => clock.InTime
  | _ => True

/-- The id that a report shows: one that was given, or the mark that was loaded. -/
def Report.shown? : Report → Option UInt64
  | loaded mark => some mark
  | stalled mark => some mark
  | issued id => some id
  | _ => none

/-- Whether the last flush of a generator that was stopped or replaced succeeded. -/
def Report.Flushed : Report → Prop
  | stopped outcome => outcome = .ok ()
  | replaced outcome => outcome = .ok ()
  | _ => True

/-- A start is not worth a report and leaves the generator as it is, or it loads the mark: the
generator then runs, or it stalls. -/
theorem step_start_cases (state : Succession) (refusal : Option String) :
    ((state.step (.start refusal)).1 = .quiet ∧
      (state.step (.start refusal)).2.ids = state.ids) ∨
    state.ids.running = false ∧ (∃ found, MarkStore.mark? state.store.rows = .ok found) ∧
      (((state.step (.start refusal)).1 = .loaded state.store.durable ∧
          (state.step (.start refusal)).2.ids =
            { state.ids.withMark state.store.durable with running := true }) ∨
        (state.step (.start refusal)).1 = .stalled state.store.durable ∧
          (state.step (.start refusal)).2.ids = state.ids.withMark state.store.durable) := by
  simp only [step, startReport]
  cases hrunning : state.ids.running with
  | true =>
    rw [TransactionIds.start_of_running state.store.rows state.clock refusal hrunning]
    exact Or.inl ⟨rfl, rfl⟩
  | false =>
    cases hload : state.ids.load state.store.rows state.clock with
    | mk outcome after =>
      cases outcome with
      | error fault =>
        rw [TransactionIds.start_of_load_error refusal hrunning hload]
        exact Or.inl ⟨rfl, rfl⟩
      | ok loaded =>
        obtain ⟨rfl, hreadable⟩ := TransactionIds.load_ok hload
        rw [TransactionIds.start_of_load_ok refusal hrunning hload]
        cases refusal with
        | none => exact Or.inr ⟨rfl, hreadable, Or.inl ⟨rfl, rfl⟩⟩
        | some reason => exact Or.inr ⟨rfl, hreadable, Or.inr ⟨rfl, rfl⟩⟩

/-- What an event does to the last id: a new generator starts from zero, an id that is given or
loaded raises the last id to it, and all other events keep the last id. -/
theorem step_cases {state : Succession} (event : Event) (hclock : state.clock.InTime)
    (hlast : state.ids.lastIssued ≠ TransactionIds.lastWord) :
    ((∃ outcome, (state.step event).1 = .replaced outcome) ∧
      (state.step event).2.number = state.number + 1 ∧ (state.step event).2.ids.lastIssued = 0) ∨
    (state.step event).2.number = state.number ∧
      ((∃ id, (state.step event).1 = .issued id ∧ state.ids.lastIssued < id ∧
          (state.step event).2.ids.lastIssued = id) ∨
        (∃ mark, (state.step event).1.shown? = some mark ∧
          (state.step event).2.ids.lastIssued = max state.ids.lastIssued mark) ∨
        (state.step event).1.shown? = none ∧
          (state.step event).2.ids.lastIssued = state.ids.lastIssued) := by
  cases event with
  | start refusal =>
    refine Or.inr ⟨rfl, Or.inr ?_⟩
    rcases step_start_cases state refusal with
      ⟨hreport, hids⟩ | ⟨-, -, ⟨hreport, hids⟩ | ⟨hreport, hids⟩⟩
    · exact Or.inr ⟨by rw [hreport]; rfl, by rw [hids]⟩
    · exact Or.inl ⟨state.store.durable, by rw [hreport]; rfl, by rw [hids]; rfl⟩
    · exact Or.inl ⟨state.store.durable, by rw [hreport]; rfl, by rw [hids]; rfl⟩
  | next =>
    refine Or.inr ⟨rfl, ?_⟩
    rcases state.ids.next_cases hclock hlast with ⟨id, hid, -, hlt, hids⟩ | ⟨fault, hfault, hids⟩
    · exact Or.inl ⟨id, by simp [step, hid, nextReport], hlt, by simp [step, hids]⟩
    · exact Or.inr (Or.inr (by simp [step, hfault, hids, nextReport, Report.shown?]))
  | stop =>
    refine Or.inr ⟨rfl, Or.inr (Or.inr ⟨rfl, ?_⟩)⟩
    exact state.ids.stop_lastIssued state.store
  | tick =>
    simp only [step]
    split
    · exact Or.inr ⟨rfl, Or.inr (Or.inr ⟨rfl, state.ids.flush_lastIssued state.store⟩)⟩
    · exact Or.inr ⟨rfl, Or.inr (Or.inr ⟨rfl, rfl⟩)⟩
  | replace timing => exact Or.inl ⟨⟨_, rfl⟩, rfl, rfl⟩
  | refuse writes => exact Or.inr ⟨rfl, Or.inr (Or.inr ⟨rfl, rfl⟩)⟩
  | setClock clock => exact Or.inr ⟨rfl, Or.inr (Or.inr ⟨rfl, rfl⟩)⟩

/-- The clock stays in time as long as only such clocks are set. -/
theorem step_inTime {state : Succession} {event : Event} (hclock : state.clock.InTime)
    (hevent : event.InTime) : (state.step event).2.clock.InTime := by
  cases event with
  | start refusal => exact hclock.congr (state.ids.start_script state.store.rows state.clock refusal)
  | next => exact hclock.congr (state.ids.next_script state.clock)
  | stop => exact hclock
  | tick =>
    simp only [step]
    split <;> exact hclock
  | replace timing => exact hclock
  | refuse writes => exact hclock
  | setClock clock => exact hevent

/-- The reports of a run so far are covered by the last id of the generator at work: no id that it
showed is greater, and its last id is zero or was shown. -/
structure Covers (state : Succession) (past : List (Nat × Report)) : Prop where
  number_le : ∀ entry ∈ past, entry.1 ≤ state.number
  shown_le : ∀ entry ∈ past, entry.1 = state.number → ∀ id, entry.2.shown? = some id →
    id ≤ state.ids.lastIssued
  origin : state.ids.lastIssued = 0 ∨ ∃ entry ∈ past, entry.2.shown? = some state.ids.lastIssued
  inTime : state.clock.InTime

/-- Reports that do not show the greatest word leave a word for the next id. -/
theorem Covers.lastIssued_ne {state : Succession} {past : List (Nat × Report)}
    (h : state.Covers past)
    (hpast : ∀ entry ∈ past, entry.2.shown? ≠ some TransactionIds.lastWord) :
    state.ids.lastIssued ≠ TransactionIds.lastWord := by
  intro heq
  rcases h.origin with hzero | ⟨entry, hentry, hshown⟩
  · exact absurd (hzero.symm.trans heq) (by decide)
  · exact hpast entry hentry (heq ▸ hshown)

/-- After an event that keeps the generator, its last id is zero or was shown. -/
theorem step_origin {state after : Succession} {past : List (Nat × Report)} {entry : Nat × Report}
    (h : state.ids.lastIssued = 0 ∨ ∃ entry ∈ past, entry.2.shown? = some state.ids.lastIssued)
    (hcases : (∃ id, entry.2 = .issued id ∧ state.ids.lastIssued < id ∧ after.ids.lastIssued = id) ∨
      (∃ mark, entry.2.shown? = some mark ∧
        after.ids.lastIssued = max state.ids.lastIssued mark) ∨
      entry.2.shown? = none ∧ after.ids.lastIssued = state.ids.lastIssued) :
    after.ids.lastIssued = 0 ∨
      ∃ other ∈ past ++ [entry], other.2.shown? = some after.ids.lastIssued := by
  have hold (heq : after.ids.lastIssued = state.ids.lastIssued) :
      after.ids.lastIssued = 0 ∨
        ∃ other ∈ past ++ [entry], other.2.shown? = some after.ids.lastIssued := by
    rw [heq]
    exact h.imp id fun ⟨other, hother, hshown⟩ => ⟨other, List.mem_append_left _ hother, hshown⟩
  have hlast : entry ∈ past ++ [entry] := List.mem_append_right _ List.mem_cons_self
  rcases hcases with ⟨id, hreport, -, heq⟩ | ⟨mark, hreport, heq⟩ | ⟨-, heq⟩
  · exact Or.inr ⟨entry, hlast, by rw [hreport, heq, Report.shown?]⟩
  · rcases TransactionIds.max_eq_or state.ids.lastIssued mark with hmax | hmax
    · exact hold (heq.trans hmax)
    · exact Or.inr ⟨entry, hlast, by rw [hreport, heq, hmax]⟩
  · exact hold heq

/-- An event keeps the reports covered. -/
theorem Covers.step {state : Succession} {past : List (Nat × Report)} {event : Event}
    (h : state.Covers past) (hevent : event.InTime)
    (hpast : ∀ entry ∈ past, entry.2.shown? ≠ some TransactionIds.lastWord) :
    (state.step event).2.Covers (past ++ [(state.number, (state.step event).1)]) := by
  have hinTime := step_inTime h.inTime hevent
  rcases step_cases event h.inTime (h.lastIssued_ne hpast) with
    ⟨⟨outcome, hreport⟩, hnumber, hlast⟩ | ⟨hnumber, hcases⟩
  · refine ⟨fun entry hentry => ?_, fun entry hentry heq => ?_, Or.inl hlast, hinTime⟩
    · rcases List.mem_append.mp hentry with hentry | hentry
      · exact hnumber ▸ Nat.le_succ_of_le (h.number_le entry hentry)
      · rw [List.mem_singleton.mp hentry, hnumber]
        exact Nat.le_succ _
    · rcases List.mem_append.mp hentry with hentry | hentry
      · have hle := h.number_le entry hentry
        omega
      · rw [List.mem_singleton.mp hentry] at heq
        exact absurd (heq.trans hnumber) (Nat.ne_of_lt (Nat.lt_succ_self _))
  · have hkept : state.ids.lastIssued ≤ (state.step event).2.ids.lastIssued := by
      rcases hcases with ⟨id, -, hlt, hlast⟩ | ⟨mark, -, hlast⟩ | ⟨-, hlast⟩ <;> rw [hlast]
      · exact UInt64.le_of_lt hlt
      · rw [UInt64.le_iff_toNat_le, TransactionIds.toNat_max]
        exact Nat.le_max_left _ _
      · exact UInt64.le_refl _
    have hnew : ∀ id, (state.step event).1.shown? = some id →
        id ≤ (state.step event).2.ids.lastIssued := by
      intro id hshown
      rcases hcases with ⟨id', hreport, -, hlast⟩ | ⟨mark, hreport, hlast⟩ | ⟨hnone, -⟩
      · rw [hreport] at hshown
        rw [hlast, ← Option.some.inj hshown]
        exact UInt64.le_refl _
      · rw [hreport] at hshown
        rw [hlast, ← Option.some.inj hshown, UInt64.le_iff_toNat_le, TransactionIds.toNat_max]
        exact Nat.le_max_right _ _
      · rw [hnone] at hshown
        exact absurd hshown (by simp)
    refine ⟨fun entry hentry => ?_, fun entry hentry heq id hshown => ?_, ?_, hinTime⟩
    · rw [hnumber]
      rcases List.mem_append.mp hentry with hentry | hentry
      · exact h.number_le entry hentry
      · exact Nat.le_of_eq (congrArg Prod.fst (List.mem_singleton.mp hentry))
    · rcases List.mem_append.mp hentry with hentry | hentry
      · exact UInt64.le_trans (h.shown_le entry hentry (heq.trans hnumber) id hshown) hkept
      · rw [List.mem_singleton.mp hentry] at hshown
        exact hnew id hshown
    · exact step_origin h.origin hcases

/-- A run keeps the reports covered, from whatever reports came before it. -/
theorem Covers.run {state : Succession} {past : List (Nat × Report)} {events : List Event}
    (h : state.Covers past) (hevents : ∀ event ∈ events, event.InTime)
    (hshown : ∀ entry ∈ past ++ (run events state).1,
      entry.2.shown? ≠ some TransactionIds.lastWord) :
    (Succession.run events state).2.Covers (past ++ (Succession.run events state).1) := by
  induction events generalizing state past with
  | nil => simpa [Succession.run] using h
  | cons event rest ih =>
    have hstep := h.step (hevents event List.mem_cons_self) fun entry hentry =>
      hshown entry (List.mem_append_left _ hentry)
    have hrest := ih hstep (fun other hother => hevents other (List.mem_cons_of_mem _ hother))
    simp only [Succession.run, List.append_assoc, List.singleton_append] at hrest hshown ⊢
    exact hrest hshown

/-- No id that was given, by whichever generator, is greater than the bound. -/
def IssuedUpTo (bound : UInt64) (past : List (Nat × Report)) : Prop :=
  ∀ entry ∈ past, ∀ id, entry.2 = .issued id → id ≤ bound

/-- Ids that are no greater than a bound are no greater than a greater one. -/
theorem IssuedUpTo.mono {bound bound' : UInt64} {past : List (Nat × Report)}
    (h : IssuedUpTo bound past) (hle : bound ≤ bound') : IssuedUpTo bound' past :=
  fun entry hentry id hid => UInt64.le_trans (h entry hentry id hid) hle

/-- One more report, which shows no id beyond the bound. -/
theorem IssuedUpTo.snoc {bound : UInt64} {past : List (Nat × Report)} (number : Nat)
    {report : Report} (h : IssuedUpTo bound past) (hreport : ∀ id, report = .issued id → id ≤ bound) :
    IssuedUpTo bound (past ++ [(number, report)]) := by
  intro entry hentry id hid
  rcases List.mem_append.mp hentry with hentry | hentry
  · exact h entry hentry id hid
  · rw [List.mem_singleton.mp hentry] at hid
    exact hreport id hid

/-- All ids given so far will be below those of the next generator: a generator at work covers them
by its last id and knows the durable mark, and otherwise the durable mark covers them. -/
structure Secures (state : Succession) (past : List (Nat × Report)) : Prop where
  flushed : state.ids.running = true → state.ids.flushed = state.store.durable
  atWork : state.ids.running = true → IssuedUpTo state.ids.lastIssued past
  atRest : state.ids.running = false → IssuedUpTo state.store.durable past

/-- A stop that is not refused leaves all ids covered by the durable mark. -/
theorem Secures.stop {state : Succession} {past : List (Nat × Report)} (h : state.Secures past)
    (hok : (state.ids.stop state.store).1 = .ok ()) :
    IssuedUpTo (state.ids.stop state.store).2.2.durable past := by
  cases hrunning : state.ids.running with
  | false =>
    rw [TransactionIds.stop_of_not_running state.store hrunning]
    exact h.atRest hrunning
  | true =>
    rw [TransactionIds.stop_durable hrunning (h.flushed hrunning) hok]
    exact h.atWork hrunning

/-- A generator at rest secures the ids that the durable mark covers. -/
theorem Secures.of_atRest {state : Succession} {past : List (Nat × Report)}
    (hrest : state.ids.running = false) (h : IssuedUpTo state.store.durable past) :
    state.Secures past := by
  have hidle : ¬ state.ids.running = true := by simp [hrest]
  exact ⟨fun hwork => absurd hwork hidle, fun hwork => absurd hwork hidle, fun _ => h⟩

/-- A generator at work that knows the durable mark secures the ids that its last id covers. -/
theorem Secures.of_atWork {state : Succession} {past : List (Nat × Report)}
    (hwork : state.ids.running = true) (hflushed : state.ids.flushed = state.store.durable)
    (h : IssuedUpTo state.ids.lastIssued past) : state.Secures past :=
  ⟨fun _ => hflushed, fun _ => h, fun hrest => absurd (hwork.symm.trans hrest) (by simp)⟩

/-- Nothing is lost as long as the generator and the durable mark stay and no id is given. -/
theorem Secures.of_quiet {state after : Succession} {past : List (Nat × Report)} {report : Report}
    (h : state.Secures past) (hids : after.ids = state.ids)
    (hdurable : after.store.durable = state.store.durable) (hreport : ∀ id, report ≠ .issued id) :
    after.Secures (past ++ [(state.number, report)]) := by
  refine ⟨fun hwork => ?_, fun hwork => ?_, fun hrest => ?_⟩
  · rw [hids] at hwork ⊢
    rw [hdurable]
    exact h.flushed hwork
  · rw [hids] at hwork ⊢
    exact (h.atWork hwork).snoc _ fun id hid => absurd hid (hreport id)
  · rw [hids] at hrest
    rw [hdurable]
    exact (h.atRest hrest).snoc _ fun id hid => absurd hid (hreport id)

/-- A start takes over the durable mark, which covers all ids given so far. -/
theorem Secures.start {state : Succession} {past : List (Nat × Report)} (h : state.Secures past)
    (refusal : Option String) :
    (state.step (.start refusal)).2.Secures
      (past ++ [(state.number, (state.step (.start refusal)).1)]) := by
  rcases step_start_cases state refusal with
    ⟨hreport, hids⟩ | ⟨hrest, -, ⟨hreport, hids⟩ | ⟨hreport, hids⟩⟩
  · rw [hreport]
    exact h.of_quiet hids rfl (by simp)
  · rw [hreport]
    refine .of_atWork (by rw [hids]) (by rw [hids]; rfl) ?_
    rw [hids]
    exact ((h.atRest hrest).mono (state.ids.le_withMark_lastIssued _)).snoc _ (by simp)
  · rw [hreport]
    exact .of_atRest (by rw [hids]; exact hrest) ((h.atRest hrest).snoc _ (by simp))

/-- An id that is given is the last id of the generator that gave it. -/
theorem Secures.next {state : Succession} {past : List (Nat × Report)} (h : state.Secures past)
    (hclock : state.clock.InTime) (hlast : state.ids.lastIssued ≠ TransactionIds.lastWord) :
    (state.step .next).2.Secures (past ++ [(state.number, (state.step .next).1)]) := by
  rcases state.ids.next_cases hclock hlast with
    ⟨id, hid, hrunning, hlt, hids⟩ | ⟨fault, hfault, hids⟩
  · have hreport : (state.step .next).1 = .issued id := by simp [Succession.step, hid, nextReport]
    have hafter : (state.step .next).2.ids = { state.ids with lastIssued := id } := hids
    rw [hreport]
    refine .of_atWork (by rw [hafter]; exact hrunning) (by rw [hafter]; exact h.flushed hrunning) ?_
    rw [hafter]
    refine ((h.atWork hrunning).mono (UInt64.le_of_lt hlt)).snoc _ fun id' hid' => ?_
    rw [Report.issued.inj hid']
    exact UInt64.le_refl _
  · have hreport : (state.step .next).1 = .quiet := by simp [Succession.step, hfault, nextReport]
    rw [hreport]
    exact h.of_quiet hids rfl (by simp)

/-- A tick makes the last id durable or changes nothing, also when its write is refused. -/
theorem Secures.tick {state : Succession} {past : List (Nat × Report)} (h : state.Secures past) :
    (state.step .tick).2.Secures (past ++ [(state.number, (state.step .tick).1)]) := by
  cases hrunning : state.ids.running with
  | false =>
    have htick : state.step .tick = (.quiet, state) := by simp [Succession.step, hrunning]
    rw [htick]
    exact h.of_quiet rfl rfl (by simp)
  | true =>
    have hreport : (state.step .tick).1 = .quiet := by simp [Succession.step, hrunning]
    have hids : (state.step .tick).2.ids = (state.ids.flush state.store).2.1 := by
      simp [Succession.step, hrunning]
    have hstore : (state.step .tick).2.store = (state.ids.flush state.store).2.2 := by
      simp [Succession.step, hrunning]
    rw [hreport]
    rcases state.ids.flush_cases state.store with ⟨-, hafter, hdurable⟩ | ⟨-, hafter, hrows⟩
    · rw [hafter] at hids
      refine .of_atWork (by rw [hids]; exact hrunning) ?_ ?_
      · rw [hids, hstore, hdurable (h.flushed hrunning)]
      · rw [hids]
        exact (h.atWork hrunning).snoc _ (by simp)
    · exact h.of_quiet (hids.trans hafter) (by rw [hstore, MarkStore.durable_congr hrows]) (by simp)

/-- An event whose last flush was not refused keeps all ids secured. -/
theorem Secures.step {state : Succession} {past : List (Nat × Report)} {event : Event}
    (h : state.Secures past) (hclock : state.clock.InTime)
    (hlast : state.ids.lastIssued ≠ TransactionIds.lastWord)
    (hflushed : (state.step event).1.Flushed) :
    (state.step event).2.Secures (past ++ [(state.number, (state.step event).1)]) := by
  cases event with
  | start refusal => exact h.start refusal
  | next => exact h.next hclock hlast
  | stop =>
    exact .of_atRest (state.ids.stop_running state.store)
      ((h.stop hflushed).snoc _ (by simp [Succession.step]))
  | tick => exact h.tick
  | replace timing => exact .of_atRest rfl ((h.stop hflushed).snoc _ (by simp [Succession.step]))
  | refuse writes =>
    exact h.of_quiet rfl (MarkStore.durable_congr rfl) (by simp [Succession.step])
  | setClock clock => exact h.of_quiet rfl rfl (by simp [Succession.step])

/-- A run keeps all ids secured as long as the last flush of each generator was not refused. -/
theorem Secures.run {state : Succession} {past : List (Nat × Report)} {events : List Event}
    (h : state.Secures past) (hcovers : state.Covers past)
    (hevents : ∀ event ∈ events, event.InTime)
    (hshown : ∀ entry ∈ past ++ (Succession.run events state).1,
      entry.2.shown? ≠ some TransactionIds.lastWord)
    (hflushed : ∀ entry ∈ (Succession.run events state).1, entry.2.Flushed) :
    (Succession.run events state).2.Secures (past ++ (Succession.run events state).1) := by
  induction events generalizing state past with
  | nil => simpa [Succession.run] using h
  | cons event rest ih =>
    have hpast : ∀ entry ∈ past, entry.2.shown? ≠ some TransactionIds.lastWord :=
      fun entry hentry => hshown entry (List.mem_append_left _ hentry)
    have hfirst := h.step hcovers.inTime (hcovers.lastIssued_ne hpast)
      (hflushed _ List.mem_cons_self)
    have hcovered := hcovers.step (hevents event List.mem_cons_self) hpast
    have hrest := ih hfirst hcovered fun other hother => hevents other (List.mem_cons_of_mem _ hother)
    simp only [Succession.run, List.append_assoc, List.singleton_append] at hrest hshown hflushed ⊢
    exact hrest hshown fun entry hentry => hflushed entry (List.mem_cons_of_mem _ hentry)

/-- Where a report of a run comes from: the events before it led to the state that it reports on. -/
theorem run_eq_append_cons {events : List Event} {state : Succession}
    {earlier later : List (Nat × Report)} {entry : Nat × Report}
    (h : (run events state).1 = earlier ++ entry :: later) :
    ∃ before event after, events = before ++ event :: after ∧ (run before state).1 = earlier ∧
      entry = ((run before state).2.number, ((run before state).2.step event).1) := by
  induction earlier generalizing events state with
  | nil =>
    cases events with
    | nil => exact absurd h (by simp [run])
    | cons event rest =>
      exact ⟨[], event, rest, rfl, rfl, (List.cons.inj h).1.symm⟩
  | cons first earlier ih =>
    cases events with
    | nil => exact absurd h (by simp [run])
    | cons event rest =>
      obtain ⟨hfirst, hrest⟩ := List.cons.inj h
      obtain ⟨before, other, after, hevents, hearlier, hentry⟩ := ih hrest
      refine ⟨event :: before, other, after, by rw [hevents, List.cons_append], ?_, hentry⟩
      rw [run, hearlier, hfirst]

/-- The first generator on a store, which has not been started. -/
def fresh (timing : Timing) (store : MarkStore) (clock : Clock) : Succession :=
  ⟨0, .create timing, store, clock⟩

/-- A new generator covers the reports of an empty past. -/
theorem covers_fresh (timing : Timing) (store : MarkStore) {clock : Clock} (h : clock.InTime) :
    (fresh timing store clock).Covers [] :=
  ⟨by simp, by simp, Or.inl rfl, h⟩

/-- A new generator secures the reports of an empty past. -/
theorem secures_fresh (timing : Timing) (store : MarkStore) (clock : Clock) :
    (fresh timing store clock).Secures [] := by
  refine ⟨fun hwork => ?_, fun hwork => ?_, fun _ => by simp [IssuedUpTo]⟩
  · exact absurd hwork (by simp [fresh, TransactionIds.create])
  · exact absurd hwork (by simp [fresh, TransactionIds.create])

/-- An id that was given is greater than the last id of its generator before. -/
theorem lt_of_step_issued {state : Succession} {event : Event} {id : UInt64}
    (hclock : state.clock.InTime) (hlast : state.ids.lastIssued ≠ TransactionIds.lastWord)
    (h : (state.step event).1 = .issued id) :
    state.ids.lastIssued < id ∧ state.ids.running = true := by
  cases event with
  | next =>
    rcases state.ids.next_cases hclock hlast with ⟨id', hid, hrunning, hlt, -⟩ | ⟨fault, hfault, -⟩
    · have hreport : (state.step .next).1 = .issued id' := by simp [step, hid, nextReport]
      obtain rfl := Report.issued.inj (hreport.symm.trans h)
      exact ⟨hlt, hrunning⟩
    · exact absurd h (by simp [step, hfault, nextReport])
  | start refusal =>
    rcases step_start_cases state refusal with
      ⟨hreport, -⟩ | ⟨-, -, ⟨hreport, -⟩ | ⟨hreport, -⟩⟩ <;>
    · rw [hreport] at h
      cases h
  | tick =>
    simp only [step] at h
    split at h <;> cases h
  | stop => cases h
  | replace timing => cases h
  | refuse writes => cases h
  | setClock clock => cases h

/-- An id is greater than every id that its generator gave before and than every mark that it
loaded, whatever writes were refused. If no last flush of a generator was refused, then it is
greater than every id that any generator gave before. -/
theorem issued_lt_issued (timing : Timing) (store : MarkStore) (clock : Clock) (events : List Event)
    (earlier later : List (Nat × Report)) (number : Nat) (id : UInt64)
    (hclock : clock.InTime) (hevents : ∀ event ∈ events, event.InTime)
    (hrun : (run events (fresh timing store clock)).1 = earlier ++ (number, .issued id) :: later)
    (hroom : ∀ entry ∈ earlier, entry.2.shown? ≠ some TransactionIds.lastWord) :
    (∀ entry ∈ earlier, entry.1 = number → ∀ other, entry.2.shown? = some other → other < id) ∧
    ((∀ entry ∈ earlier, entry.2.Flushed) →
      ∀ entry ∈ earlier, ∀ other, entry.2 = .issued other → other < id) := by
  obtain ⟨before, event, after, rfl, rfl, hentry⟩ := run_eq_append_cons hrun
  obtain ⟨hnumber, hreport⟩ := Prod.mk.inj hentry
  have hbefore : ∀ event ∈ before, event.InTime :=
    fun event hevent => hevents event (List.mem_append_left _ hevent)
  have hcovers := (covers_fresh timing store hclock).run hbefore hroom
  rw [List.nil_append] at hcovers
  obtain ⟨hlt, hrunning⟩ :=
    lt_of_step_issued hcovers.inTime (hcovers.lastIssued_ne hroom) hreport.symm
  constructor
  · intro entry hentry heq other hother
    exact UInt64.lt_of_le_of_lt
      (hcovers.shown_le entry hentry (heq.trans hnumber) other hother) hlt
  · intro hflushed entry hentry other hother
    have hsecures := (secures_fresh timing store clock).run (covers_fresh timing store hclock)
      hbefore hroom hflushed
    rw [List.nil_append] at hsecures
    exact UInt64.lt_of_le_of_lt (hsecures.atWork hrunning entry hentry other hother) hlt

/-- A run in which a tick is refused, the clock goes back, and the generator is started again and
then replaced by one whose first start is refused its thread. -/
def backwardRun : List Event :=
  [.start none, .next, .refuse 1, .tick, .setClock (.constant 960), .next, .stop, .start none, .next,
    .replace ⟨50, 10, 0⟩, .start (some "no thread"), .start none, .next]

/-- The reports of that run before its last id. -/
def backwardReports : List (Nat × Report) :=
  [(0, .loaded 0), (0, .issued 262144000), (0, .quiet), (0, .quiet), (0, .quiet),
    (0, .issued 262144001), (0, .stopped (.ok ())), (0, .loaded 262144001), (0, .issued 262144002),
    (0, .replaced (.ok ())), (1, .stalled 262144002), (1, .loaded 262144002)]

/-- A replaced generator goes on above all ids under a clock that has gone back. -/
theorem issued_lt_issued_backwardRun :
    (run backwardRun (fresh ⟨50, 10, 0⟩ ⟨.empty, 0⟩ (.constant 1000))).1 =
      backwardReports ++ [(1, .issued 262144003)] ∧
    (∀ entry ∈ backwardReports, entry.1 = 1 → ∀ other, entry.2.shown? = some other →
      other < 262144003) ∧
    ∀ entry ∈ backwardReports, ∀ other, entry.2 = .issued other → other < 262144003 := by
  have hrun : (run backwardRun (fresh ⟨50, 10, 0⟩ ⟨.empty, 0⟩ (.constant 1000))).1 =
      backwardReports ++ [(1, .issued 262144003)] := by
    rfl
  have hclocks : ∀ event ∈ backwardRun, event.InTime := by
    simp only [backwardRun, List.forall_mem_cons, Event.InTime, List.not_mem_nil, true_and]
    exact ⟨.constant (by decide), fun _ h => h.elim⟩
  have hroom : ∀ entry ∈ backwardReports, entry.2.shown? ≠ some TransactionIds.lastWord := by
    decide
  have hflushed : ∀ entry ∈ backwardReports, entry.2.Flushed := by
    simp [backwardReports, Report.Flushed]
  obtain ⟨hown, hall⟩ := issued_lt_issued ⟨50, 10, 0⟩ ⟨.empty, 0⟩ (.constant 1000) backwardRun
    backwardReports [] 1 262144003 (.constant (by decide)) hclocks hrun hroom
  exact ⟨hrun, hown, hall hflushed⟩

end Succession

end EntityCatalog
