import EntityCatalog.Proofs.TransactionIds.Succession

/-!
# What a stop makes durable

A stop that is refused leaves the generator at rest with an id that is not durable. A further stop
finds it at rest, flushes nothing and still succeeds. So a stop that succeeds has made all ids of the
generator durable, unless an earlier stop was refused and the generator has not been started since. The
reports tell whether that is so: the generator then owes a mark.
-/

namespace EntityCatalog

namespace Succession

/-- Whether a generator owes a mark after a report of it: it does when a stop was refused, and no
longer when it has been started again. -/
def Report.owes : Report → Bool → Bool
  | stopped (.error _), _ => true
  | loaded _, _ => false
  | _, owed => owed

/-- Whether the generator with the given number owes a mark after the reports of a run. -/
def owesMark (number : Nat) (past : List (Nat × Report)) : Bool :=
  past.foldl (fun owed entry => if entry.1 = number then entry.2.owes owed else owed) false

/-- One more report of the generator. -/
theorem owesMark_concat (number : Nat) (past : List (Nat × Report)) (report : Report) :
    owesMark number (past ++ [(number, report)]) = report.owes (owesMark number past) := by
  simp [owesMark]

/-- A generator without reports owes nothing. -/
theorem owesMark_of_lt {number : Nat} {past : List (Nat × Report)}
    (h : ∀ entry ∈ past, entry.1 < number) : owesMark number past = false := by
  rw [owesMark]
  induction past with
  | nil => rfl
  | cons entry rest ih =>
    rw [List.foldl_cons, if_neg (Nat.ne_of_lt (h entry List.mem_cons_self))]
    exact ih fun other hother => h other (List.mem_cons_of_mem _ hother)

/-- What the reports of a run tell of the generator at work and the durable mark. The last id is the
mark or an id that the generator gave beyond it. A generator that owes a mark is at rest and has given
such an id; one that is at rest and owes nothing has not. -/
structure Tracks (state : Succession) (past : List (Nat × Report)) : Prop where
  flushed : state.ids.running = true → state.ids.flushed = state.store.durable
  durable_le : state.ids.running = true → state.store.durable ≤ state.ids.lastIssued
  settled : state.ids.running = true → owesMark state.number past = false
  ahead : state.store.durable < state.ids.lastIssued →
    (state.number, .issued state.ids.lastIssued) ∈ past
  owing : owesMark state.number past = true → state.store.durable < state.ids.lastIssued
  covered : state.ids.running = false → owesMark state.number past = false →
    state.ids.lastIssued ≤ state.store.durable

namespace Tracks

variable {state after : Succession} {past : List (Nat × Report)} {report : Report}

/-- A report that neither makes nor settles a debt, of an event that leaves the generator and the
durable mark alone. -/
theorem of_same (h : state.Tracks past) (hnumber : after.number = state.number)
    (hids : after.ids = state.ids) (hdurable : after.store.durable = state.store.durable)
    (hreport : ∀ owed, report.owes owed = owed) :
    after.Tracks (past ++ [(state.number, report)]) := by
  have howes : owesMark after.number (past ++ [(state.number, report)]) =
      owesMark state.number past := by
    rw [hnumber, owesMark_concat, hreport]
  constructor
  · rw [hids, hdurable]
    exact h.flushed
  · rw [hids, hdurable]
    exact h.durable_le
  · rw [hids, howes]
    exact h.settled
  · rw [hids, hdurable, hnumber]
    exact fun hlt => List.mem_append_left _ (h.ahead hlt)
  · rw [hids, hdurable, howes]
    exact h.owing
  · rw [hids, hdurable, howes]
    exact h.covered

/-- A generator that runs, owes nothing, and whose last id is the durable mark or was given beyond
it. -/
theorem of_running (hrunning : after.ids.running = true)
    (hflushed : after.ids.flushed = after.store.durable)
    (hle : after.store.durable ≤ after.ids.lastIssued) (howes : owesMark after.number past = false)
    (hahead : after.store.durable < after.ids.lastIssued →
      (after.number, .issued after.ids.lastIssued) ∈ past) : after.Tracks past :=
  ⟨fun _ => hflushed, fun _ => hle, fun _ => howes, hahead,
    fun howing => absurd (howing.symm.trans howes) (by simp),
    fun hrest => absurd (hrest.symm.trans hrunning) (by simp)⟩

/-- A generator at rest that owes nothing, with a last id that the durable mark covers. -/
theorem of_rest (hrest : after.ids.running = false) (howes : owesMark after.number past = false)
    (hle : after.ids.lastIssued ≤ after.store.durable) : after.Tracks past := by
  have hidle : ¬ after.ids.running = true := by simp [hrest]
  exact ⟨fun hrunning => absurd hrunning hidle, fun hrunning => absurd hrunning hidle, fun _ => howes,
    fun hlt => absurd hlt (UInt64.not_lt.mpr hle),
    fun howing => absurd (howing.symm.trans howes) (by simp), fun _ _ => hle⟩

/-- A last id that is ahead of the mark is still the one that was given, once the mark has been taken
over. -/
theorem ahead_withMark (h : state.Tracks past)
    (hlt : state.store.durable < (state.ids.withMark state.store.durable).lastIssued) :
    (state.number, .issued (state.ids.withMark state.store.durable).lastIssued) ∈ past := by
  rcases UInt64.le_total state.ids.lastIssued state.store.durable with hle | hle
  · rw [TransactionIds.withMark_lastIssued_of_ge hle] at hlt
    exact absurd hlt (UInt64.lt_irrefl _)
  · rw [TransactionIds.withMark_lastIssued_of_le hle] at hlt ⊢
    exact h.ahead hlt

/-- A generator that stalls in its start has taken over the mark, and stays at rest with its debt. -/
theorem stalled (h : state.Tracks past) (hrest : state.ids.running = false)
    (hnumber : after.number = state.number)
    (hids : after.ids = state.ids.withMark state.store.durable)
    (hdurable : after.store.durable = state.store.durable) :
    after.Tracks (past ++ [(state.number, .stalled state.store.durable)]) := by
  have hidle : ¬ after.ids.running = true := by simp [hids, hrest]
  have howes : owesMark after.number (past ++ [(state.number, .stalled state.store.durable)]) =
      owesMark state.number past := by
    rw [hnumber, owesMark_concat]
    rfl
  refine ⟨fun hwork => absurd hwork hidle, fun hwork => absurd hwork hidle,
    fun hwork => absurd hwork hidle, ?_, ?_, ?_⟩
  · rw [hids, hdurable, hnumber]
    exact fun hlt => List.mem_append_left _ (h.ahead_withMark hlt)
  · rw [hids, hdurable, howes]
    exact fun howing => UInt64.lt_of_lt_of_le (h.owing howing)
      (state.ids.lastIssued_le_withMark state.store.durable)
  · rw [hids, hdurable, howes]
    intro _ hsettled
    rw [TransactionIds.withMark_lastIssued_of_ge (h.covered hrest hsettled)]
    exact UInt64.le_refl _

/-- A generator that starts pays what it owed: it takes over the mark, and its next flush covers the
last id. -/
theorem start (h : state.Tracks past) (refusal : Option String) :
    (state.step (.start refusal)).2.Tracks
      (past ++ [(state.number, (state.step (.start refusal)).1)]) := by
  have hstore : (state.step (.start refusal)).2.store = state.store := rfl
  have hnumber : (state.step (.start refusal)).2.number = state.number := rfl
  rcases step_start_cases state refusal with
    ⟨hreport, hids⟩ | ⟨hrest, -, ⟨hreport, hids⟩ | ⟨hreport, hids⟩⟩
  · rw [hreport]
    exact h.of_same rfl hids rfl fun _ => rfl
  · rw [hreport]
    refine .of_running (by rw [hids]) (by rw [hids, hstore]; rfl) ?_ ?_ ?_
    · rw [hids, hstore]
      exact state.ids.le_withMark_lastIssued state.store.durable
    · rw [hnumber, owesMark_concat]
      rfl
    · rw [hids, hstore, hnumber]
      exact fun hlt => List.mem_append_left _ (h.ahead_withMark hlt)
  · rw [hreport]
    exact h.stalled hrest rfl hids rfl

/-- An id that is given is ahead of the mark. -/
theorem next (h : state.Tracks past) (hclock : state.clock.InTime)
    (hlast : state.ids.lastIssued ≠ TransactionIds.lastWord) :
    (state.step .next).2.Tracks (past ++ [(state.number, (state.step .next).1)]) := by
  rcases state.ids.next_cases hclock hlast with
    ⟨id, hid, hrunning, hlt, hids⟩ | ⟨fault, hfault, hids⟩
  · have hreport : (state.step .next).1 = .issued id := by simp [step, hid, nextReport]
    have hafter : (state.step .next).2.ids = { state.ids with lastIssued := id } := hids
    have hstore : (state.step .next).2.store = state.store := rfl
    have hnumber : (state.step .next).2.number = state.number := rfl
    rw [hreport]
    refine .of_running (by rw [hafter]; exact hrunning) ?_ ?_ ?_ ?_
    · rw [hafter, hstore]
      exact h.flushed hrunning
    · rw [hafter, hstore]
      exact UInt64.le_trans (h.durable_le hrunning) (UInt64.le_of_lt hlt)
    · rw [hnumber, owesMark_concat]
      exact h.settled hrunning
    · rw [hafter, hnumber]
      exact fun _ => List.mem_append_right _ List.mem_cons_self
  · have hreport : (state.step .next).1 = .quiet := by simp [step, hfault, nextReport]
    rw [hreport]
    exact h.of_same rfl hids rfl fun _ => rfl

/-- A stop at rest does nothing. A stop at work covers the last id, or it is refused and the generator
owes a mark. -/
theorem stop (h : state.Tracks past) :
    (state.step .stop).2.Tracks (past ++ [(state.number, (state.step .stop).1)]) := by
  have hreport : (state.step .stop).1 = .stopped (state.ids.stop state.store).1 := rfl
  have hids : (state.step .stop).2.ids = (state.ids.stop state.store).2.1 := rfl
  have hstore : (state.step .stop).2.store = (state.ids.stop state.store).2.2 := rfl
  have hnumber : (state.step .stop).2.number = state.number := rfl
  have hlast := state.ids.stop_lastIssued state.store
  cases hrunning : state.ids.running with
  | false =>
    rw [TransactionIds.stop_of_not_running state.store hrunning] at hreport hids hstore
    rw [hreport]
    exact h.of_same rfl hids (by rw [hstore]) fun _ => rfl
  | true =>
    have hrest := state.ids.stop_running state.store
    cases houtcome : (state.ids.stop state.store).1 with
    | ok =>
      have hdurable := TransactionIds.stop_durable hrunning (h.flushed hrunning) houtcome
      rw [hreport, houtcome]
      refine .of_rest (hids ▸ hrest) ?_ ?_
      · rw [hnumber, owesMark_concat]
        exact h.settled hrunning
      · rw [hids, hstore, hlast, hdurable]
        exact UInt64.le_refl _
    | error fault =>
      obtain ⟨hne, hrows⟩ := TransactionIds.stop_refused houtcome
      have hdurable : (state.step .stop).2.store.durable = state.store.durable := by
        rw [hstore, MarkStore.durable_congr hrows]
      have hlt : state.store.durable < state.ids.lastIssued :=
        UInt64.lt_of_le_of_ne (h.durable_le hrunning) fun heq =>
          hne (heq.symm.trans (h.flushed hrunning).symm)
      have howes : owesMark (state.step .stop).2.number
          (past ++ [(state.number, .stopped (.error fault))]) = true := by
        rw [hnumber, owesMark_concat]
        rfl
      have hidle : ¬ (state.step .stop).2.ids.running = true := by simp [hids, hrest]
      rw [hreport, houtcome]
      refine ⟨fun hwork => absurd hwork hidle, fun hwork => absurd hwork hidle,
        fun hwork => absurd hwork hidle, fun _ => ?_, fun _ => ?_, fun _ hsettled => ?_⟩
      · rw [hids, hlast, hnumber]
        exact List.mem_append_left _ (h.ahead hlt)
      · rw [hids, hlast, hdurable]
        exact hlt
      · exact absurd (howes.symm.trans hsettled) (by simp)

/-- A tick covers the last id, or its write is refused and nothing changes. -/
theorem tick (h : state.Tracks past) :
    (state.step .tick).2.Tracks (past ++ [(state.number, (state.step .tick).1)]) := by
  cases hrunning : state.ids.running with
  | false =>
    have htick : state.step .tick = (.quiet, state) := by simp [step, hrunning]
    rw [htick]
    exact h.of_same rfl rfl rfl fun _ => rfl
  | true =>
    have hreport : (state.step .tick).1 = .quiet := by simp [step, hrunning]
    have hids : (state.step .tick).2.ids = (state.ids.flush state.store).2.1 := by
      simp [step, hrunning]
    have hstore : (state.step .tick).2.store = (state.ids.flush state.store).2.2 := by
      simp [step, hrunning]
    have hnumber : (state.step .tick).2.number = state.number := by simp [step, hrunning]
    rw [hreport]
    rcases state.ids.flush_cases state.store with ⟨-, hafter, hdurable⟩ | ⟨-, hafter, hrows⟩
    · have hmark := hdurable (h.flushed hrunning)
      rw [hafter] at hids
      refine .of_running (by rw [hids]; exact hrunning) (by rw [hids, hstore, hmark]) ?_ ?_ ?_
      · rw [hids, hstore, hmark]
        exact UInt64.le_refl _
      · rw [hnumber, owesMark_concat]
        exact h.settled hrunning
      · rw [hids, hstore, hmark]
        exact fun hlt => absurd hlt (UInt64.lt_irrefl _)
    · exact h.of_same hnumber (hids.trans hafter) (by rw [hstore, MarkStore.durable_congr hrows])
        fun _ => rfl

/-- A new generator is at rest and has given no id. -/
theorem replace (hnumbers : ∀ entry ∈ past, entry.1 ≤ state.number) (timing : Timing) :
    (state.step (.replace timing)).2.Tracks
      (past ++ [(state.number, (state.step (.replace timing)).1)]) := by
  refine .of_rest rfl (owesMark_of_lt fun entry hentry => ?_) ?_
  · change entry.1 < state.number + 1
    rcases List.mem_append.mp hentry with hpast | hlast
    · exact Nat.lt_succ_of_le (hnumbers entry hpast)
    · rw [List.mem_singleton.mp hlast]
      exact Nat.lt_succ_self _
  · rw [UInt64.le_iff_toNat_le]
    exact Nat.zero_le _

/-- An event keeps track. -/
theorem step (h : state.Tracks past) (hcovers : state.Covers past)
    (hlast : state.ids.lastIssued ≠ TransactionIds.lastWord) (event : Event) :
    (state.step event).2.Tracks (past ++ [(state.number, (state.step event).1)]) := by
  cases event with
  | start refusal => exact h.start refusal
  | next => exact h.next hcovers.inTime hlast
  | stop => exact h.stop
  | tick => exact h.tick
  | replace timing => exact .replace hcovers.number_le timing
  | refuse writes => exact h.of_same rfl rfl (MarkStore.durable_congr rfl) fun _ => rfl
  | setClock clock => exact h.of_same rfl rfl rfl fun _ => rfl

/-- A run keeps track, from whatever reports came before it. -/
theorem run {events : List Event} (h : state.Tracks past) (hcovers : state.Covers past)
    (hevents : ∀ event ∈ events, event.InTime)
    (hshown : ∀ entry ∈ past ++ (Succession.run events state).1,
      entry.2.shown? ≠ some TransactionIds.lastWord) :
    (Succession.run events state).2.Tracks (past ++ (Succession.run events state).1) := by
  induction events generalizing state past with
  | nil => simpa [Succession.run] using h
  | cons event rest ih =>
    have hpast : ∀ entry ∈ past, entry.2.shown? ≠ some TransactionIds.lastWord :=
      fun entry hentry => hshown entry (List.mem_append_left _ hentry)
    have hfirst := h.step hcovers (hcovers.lastIssued_ne hpast) event
    have hcovered := hcovers.step (hevents event List.mem_cons_self) hpast
    have hrest := ih hfirst hcovered fun other hother => hevents other (List.mem_cons_of_mem _ hother)
    simp only [Succession.run, List.append_assoc, List.singleton_append] at hrest hshown ⊢
    exact hrest hshown

/-- A stop that succeeds has covered the last id, or the generator owes a mark and the stop has done
nothing. -/
theorem stop_cases (h : state.Tracks past) (hok : (state.ids.stop state.store).1 = .ok ()) :
    (owesMark state.number past = false ∧
      state.ids.lastIssued ≤ (state.ids.stop state.store).2.2.durable) ∨
    owesMark state.number past = true ∧ (state.ids.stop state.store).2 = (state.ids, state.store) := by
  cases hrunning : state.ids.running with
  | true =>
    refine Or.inl ⟨h.settled hrunning, ?_⟩
    rw [TransactionIds.stop_durable hrunning (h.flushed hrunning) hok]
    exact UInt64.le_refl _
  | false =>
    rw [TransactionIds.stop_of_not_running state.store hrunning]
    cases howes : owesMark state.number past with
    | true => exact Or.inr ⟨rfl, rfl⟩
    | false => exact Or.inl ⟨rfl, h.covered hrunning howes⟩

end Tracks

/-- The first generator has given no id. -/
theorem tracks_fresh (timing : Timing) (store : MarkStore) (clock : Clock) :
    (fresh timing store clock).Tracks [] :=
  .of_rest rfl rfl (UInt64.le_iff_toNat_le.mpr (Nat.zero_le _))

/-- A stop that succeeds has made every id of the generator durable exactly when the generator owed no
mark. When it owes one the stop succeeds and leaves the store as it was. -/
theorem stop_covers_iff (timing : Timing) (store : MarkStore) (clock : Clock) (events : List Event)
    (hclock : clock.InTime) (hevents : ∀ event ∈ events, event.InTime)
    (hroom : ∀ entry ∈ (run events (fresh timing store clock)).1,
      entry.2.shown? ≠ some TransactionIds.lastWord) :
    let past := (run events (fresh timing store clock)).1
    let state := (run events (fresh timing store clock)).2
    (owesMark state.number past = true →
      state.step .stop = (.stopped (.ok ()), state)) ∧
    ((state.step .stop).1 = .stopped (.ok ()) →
      ((∀ id, (state.number, .issued id) ∈ past → id ≤ (state.step .stop).2.store.durable) ↔
        owesMark state.number past = false)) := by
  intro past state
  have hcovers : state.Covers past := by
    simpa using (covers_fresh timing store hclock).run hevents (by simpa using hroom)
  have htracks : state.Tracks past := by
    simpa using (tracks_fresh timing store clock).run (covers_fresh timing store hclock) hevents
      (by simpa using hroom)
  constructor
  · intro howes
    have hrest : state.ids.running = false := by
      cases hrunning : state.ids.running with
      | false => rfl
      | true => exact absurd (howes.symm.trans (htracks.settled hrunning)) (by simp)
    rw [step, TransactionIds.stop_of_not_running state.store hrest]
  · intro hok
    have hdurable : (state.step .stop).2.store = (state.ids.stop state.store).2.2 := rfl
    rcases htracks.stop_cases (Report.stopped.inj hok) with ⟨howes, hle⟩ | ⟨howes, hsame⟩
    · refine ⟨fun _ => howes, fun _ id hid => ?_⟩
      rw [hdurable]
      exact UInt64.le_trans (hcovers.shown_le _ hid rfl id rfl) hle
    · refine ⟨fun hall => ?_, fun hnone => absurd (howes.symm.trans hnone) (by simp)⟩
      have hlt := htracks.owing howes
      have hle := hall _ (htracks.ahead hlt)
      rw [hdurable, hsame] at hle
      exact absurd hlt (UInt64.not_lt.mpr hle)

/-- A run in which a stop is refused. -/
def refusedRun : List Event := [.start none, .next, .refuse 1, .stop]

/-- The reports of that run. -/
def refusedReports : List (Nat × Report) :=
  [(0, .loaded 0), (0, .issued 262144000), (0, .quiet),
    (0, .stopped (.error (.storage "disk unavailable")))]

/-- Started once more, the generator pays what it owes at its next stop. -/
theorem stop_covers_iff_restarted :
    let state := (run (refusedRun ++ [.start none]) (fresh ⟨50, 10, 0⟩ ⟨.empty, 0⟩ (.constant 1000))).2
    (state.step .stop).1 = .stopped (.ok ()) ∧
      ∀ id, (0, .issued id) ∈ refusedReports ++ [(0, .loaded 0)] →
        id ≤ (state.step .stop).2.store.durable := by
  have hrun : (run (refusedRun ++ [.start none]) (fresh ⟨50, 10, 0⟩ ⟨.empty, 0⟩ (.constant 1000))).1 =
      refusedReports ++ [(0, .loaded 0)] := by
    rfl
  have hclocks : ∀ event ∈ refusedRun ++ [.start none], event.InTime := by
    simp [refusedRun, Event.InTime]
  have hroom : ∀ entry ∈ refusedReports ++ [(0, .loaded 0)],
      entry.2.shown? ≠ some TransactionIds.lastWord := by
    decide
  have hstop : ((run (refusedRun ++ [.start none]) (fresh ⟨50, 10, 0⟩ ⟨.empty, 0⟩
      (.constant 1000))).2.step .stop).1 = .stopped (.ok ()) := by
    rfl
  rw [← hrun] at hroom
  have hall := stop_covers_iff ⟨50, 10, 0⟩ ⟨.empty, 0⟩ (.constant 1000) (refusedRun ++ [.start none])
    (.constant (by decide)) hclocks hroom
  have hcovers := hall.2 hstop
  rw [hrun] at hcovers
  exact ⟨hstop, hcovers.mpr rfl⟩

/-- A stop that is made again after it was refused succeeds, and the mark still lags behind the id that
was given. The next generator then gives that id once more. -/
theorem stop_again_loses_mark :
    let refused := run refusedRun (fresh ⟨50, 10, 0⟩ ⟨.empty, 0⟩ (.constant 1000))
    (0, .issued 262144000) ∈ refused.1 ∧
      (refused.2.step .stop).1 = .stopped (.ok ()) ∧
      (refused.2.step .stop).2.store.durable = 0 ∧
      (run [.stop, .replace ⟨50, 10, 0⟩, .start none, .next] refused.2).1 =
        [(0, .stopped (.ok ())), (0, .replaced (.ok ())), (1, .loaded 0), (1, .issued 262144000)] := by
  have hrun : (run refusedRun (fresh ⟨50, 10, 0⟩ ⟨.empty, 0⟩ (.constant 1000))).1 =
      refusedReports := by
    rfl
  refine ⟨?_, by rfl, by rfl, by rfl⟩
  rw [hrun]
  exact List.mem_cons_of_mem _ List.mem_cons_self

end Succession

end EntityCatalog
