import EntityCatalog.Proofs.TransactionIds.Skew

/-!
# Every search for an id ends

A search for the next id reads the clock, gives the id if it is tolerated, and otherwise waits for the
clock and starts afresh, as often as it takes. `Searches` is this loop, with no bound on its rounds. The
readings may be any words, in and out of tolerance. A clock that stands still either tolerates the id or
is given up, so a wait that succeeds has seen the clock move, and ends within the script. So the rounds
use the script up and every search ends, with a few readings more than the script has left. The attempts
that a generator allows for a search always suffice.
-/

namespace EntityCatalog

namespace Clock

/-- From its last reading on, a script repeats it. -/
theorem reading_of_length_le {clock : Clock} {number : Nat} (h : clock.script.length ≤ number + 1) :
    clock.reading number = clock.script.getLast?.getD 0 := by
  rw [reading]
  rcases Nat.lt_or_ge number clock.script.length with hlt | hge
  · have hlast : clock.script.length - 1 = number := by omega
    rw [List.getLast?_eq_getElem?, hlast, List.getElem?_eq_getElem hlt, Option.getD_some, Option.getD_some]
  · rw [List.getElem?_eq_none hge, Option.getD_none]

/-- Both readings of a clock that moves are in its script. -/
theorem length_of_now_ne {clock : Clock} (h : clock.read.2.now ≠ clock.now) :
    clock.taken + 2 ≤ clock.script.length := by
  rcases Nat.lt_or_ge (clock.taken + 1) clock.script.length with hmore | hlength
  · exact hmore
  · have hnow : clock.now = clock.script.getLast?.getD 0 := reading_of_length_le hlength
    have hnext : clock.read.2.now = clock.script.getLast?.getD 0 :=
      reading_of_length_le (Nat.le_succ_of_le hlength)
    exact absurd (hnext.trans hnow.symm) h

end Clock

namespace Timing

variable {timing : Timing} {floor : UInt64} {clock waited : Clock}

/-- Waiting takes a reading, and one for each further look at most. -/
theorem await_taken (timing : Timing) (floor : UInt64) (polls : Nat) (clock : Clock) :
    clock.taken < (timing.await floor polls clock).2.taken ∧
      (timing.await floor polls clock).2.taken ≤ clock.taken + (polls + 1) := by
  induction polls generalizing clock with
  | zero =>
    have hone : (timing.await floor 0 clock).2 = clock.read.2 := by
      rw [await_zero]
      split <;> rfl
    rw [hone]
    exact ⟨Nat.lt_succ_self _, Nat.le_refl _⟩
  | succ polls ih =>
    cases hfirst : timing.tolerates floor clock.now with
    | true =>
      rw [await_of_tolerates (polls + 1) hfirst]
      exact ⟨Nat.lt_succ_self _, Nat.add_le_add_left (Nat.le_add_left 1 _) _⟩
    | false =>
      rw [await_of_not_tolerates polls hfirst]
      obtain ⟨hless, hle⟩ := ih clock.read.2
      simp only [Clock.read] at hless hle ⊢
      omega

/-- A clock that catches up has moved. -/
theorem length_of_catches_up (hlag : timing.tolerates floor clock.now = false)
    (hcaught : timing.tolerates floor clock.read.2.now = true) :
    clock.taken + 2 ≤ clock.script.length := by
  apply Clock.length_of_now_ne
  intro hsame
  rw [hsame, hlag] at hcaught
  exact absurd hcaught (by simp)

/-- A wait for a clock that catches up at once ends within the script. -/
theorem await_within_of_catches_up {polls : Nat} (hlag : timing.tolerates floor clock.now = false)
    (hcaught : timing.tolerates floor clock.read.2.now = true)
    (h : timing.await floor polls clock.read.2 = (.ok (), waited)) :
    waited.taken ≤ clock.script.length := by
  rw [await_of_tolerates polls hcaught] at h
  obtain rfl := (Prod.mk.inj h).2
  exact length_of_catches_up hlag hcaught

/-- A wait that succeeds after a reading that was not tolerated has seen the clock catch up, so it ends
within the script. -/
theorem await_within {polls : Nat} (hlag : timing.tolerates floor clock.now = false)
    (h : timing.await floor polls clock.read.2 = (.ok (), waited)) :
    waited.taken ≤ clock.script.length := by
  induction polls generalizing clock with
  | zero =>
    cases hsecond : timing.tolerates floor clock.read.2.now with
    | true => exact await_within_of_catches_up hlag hsecond h
    | false =>
      rw [await_zero, hsecond] at h
      exact absurd (Prod.mk.inj h).1 (by simp)
  | succ polls ih =>
    cases hsecond : timing.tolerates floor clock.read.2.now with
    | true => exact await_within_of_catches_up hlag hsecond h
    | false =>
      -- The clock lags at the second reading as well, and the rest of the wait starts from there.
      rw [await_of_not_tolerates polls hsecond] at h
      have hlater : waited.taken ≤ clock.read.2.script.length := ih hsecond h
      exact hlater

/-- What such a wait leaves of the script. -/
theorem remaining_of_await {polls : Nat} (hlag : timing.tolerates floor clock.now = false)
    (h : timing.await floor polls clock.read.2 = (.ok (), waited)) :
    waited.taken + waited.remaining = clock.taken + clock.remaining ∧
      waited.remaining < clock.remaining := by
  have hwithin := await_within hlag h
  have hscript := timing.await_script floor polls clock.read.2
  have hless := (timing.await_taken floor polls clock.read.2).1
  rw [h] at hscript hless
  simp only [Clock.read] at hscript hless
  simp only [Clock.remaining, hscript]
  omega

end Timing

namespace TransactionIds

/-- A search for the id after `last`, with its answer and the clock at its end. It gives an id that is
tolerated, waits for the clock if the id is not, is refused if the wait fails, and starts again if the
wait succeeds. -/
inductive Searches (timing : Timing) (last : UInt64) :
    Clock → Except Error UInt64 × Clock → Prop where
  | given {clock : Clock}
      (h : timing.tolerates (millis (successor last clock.now)) clock.now = true) :
      Searches timing last clock (.ok (successor last clock.now), clock.read.2)
  | refused {clock waited : Clock} {fault : Error}
      (h : timing.tolerates (millis (successor last clock.now)) clock.now = false)
      (hwait : timing.await (millis (successor last clock.now)) timing.polls clock.read.2 =
        (.error fault, waited)) :
      Searches timing last clock (.error fault, waited)
  | again {clock waited : Clock} {result : Except Error UInt64 × Clock}
      (h : timing.tolerates (millis (successor last clock.now)) clock.now = false)
      (hwait : timing.await (millis (successor last clock.now)) timing.polls clock.read.2 =
        (.ok (), waited))
      (hrest : Searches timing last waited result) :
      Searches timing last clock result

namespace Searches

variable {timing : Timing} {last : UInt64} {clock : Clock} {result : Except Error UInt64 × Clock}

/-- A search ends in one way only. -/
theorem unique {other : Except Error UInt64 × Clock} (h : Searches timing last clock result)
    (hother : Searches timing last clock other) : other = result := by
  induction h with
  | given hfits =>
    cases hother with
    | given => rfl
    | refused hlag => exact absurd (hfits.symm.trans hlag) (by simp)
    | again hlag => exact absurd (hfits.symm.trans hlag) (by simp)
  | refused hlag hwait =>
    cases hother with
    | given hfits => exact absurd (hfits.symm.trans hlag) (by simp)
    | refused _ hfailed =>
      obtain ⟨hfault, rfl⟩ := Prod.mk.inj (hfailed.symm.trans hwait)
      rw [Except.error.inj hfault]
    | again _ hwaited => exact absurd (hwait.symm.trans hwaited) (by simp)
  | again hlag hwait _ ih =>
    cases hother with
    | given hfits => exact absurd (hfits.symm.trans hlag) (by simp)
    | refused _ hfailed => exact absurd (hwait.symm.trans hfailed) (by simp)
    | again _ hwaited hother =>
      obtain rfl := (Prod.mk.inj (hwait.symm.trans hwaited)).2
      exact ih hother

/-- A search gives an id or is refused because the clock lags. -/
theorem answer (h : Searches timing last clock result) :
    (∃ id, result.1 = .ok id) ∨
      ∃ floor now, result.1 = .error (.clockSkew floor now timing.maxSkew) := by
  induction h with
  | given => exact .inl ⟨_, rfl⟩
  | refused _ hwait =>
    obtain ⟨now, rfl⟩ := Timing.await_error (congrArg Prod.fst hwait)
    exact .inr ⟨_, now, rfl⟩
  | again _ _ _ ih => exact ih

/-- A search takes a reading. Beyond the end of the script it takes no more than one reading of its own,
one of a wait, and those of the further looks of that wait. -/
theorem taken_bounds (h : Searches timing last clock result) :
    clock.taken < result.2.taken ∧
      result.2.taken ≤ clock.taken + (clock.remaining + timing.polls + 2) := by
  induction h with
  | given =>
    simp only [Clock.read]
    omega
  | @refused clock waited fault _ hwait =>
    have hreadings := timing.await_taken (millis (successor last clock.now)) timing.polls clock.read.2
    rw [hwait] at hreadings
    simp only [Clock.read] at hreadings ⊢
    omega
  | again hlag hwait _ ih =>
    obtain ⟨hsum, hfewer⟩ := Timing.remaining_of_await hlag hwait
    omega

end Searches

/-- More attempts than the script has readings left are enough for a search to end. -/
theorem issue_searches {timing : Timing} {last : UInt64} {attempts : Nat} {clock : Clock}
    (h : clock.remaining < attempts) :
    Searches timing last clock (issue timing last attempts clock) := by
  induction attempts generalizing clock with
  | zero => exact absurd h (Nat.not_lt_zero _)
  | succ attempts ih =>
    cases hfirst : timing.tolerates (millis (successor last clock.now)) clock.now with
    | true =>
      rw [issue_succ_of_tolerates attempts hfirst]
      exact .given hfirst
    | false =>
      rw [issue_succ_of_not_tolerates attempts (Bool.eq_false_iff.mp hfirst)]
      cases hwait : timing.await (millis (successor last clock.now)) timing.polls clock.read.2 with
      | mk outcome waited =>
        cases outcome with
        | error fault => exact .refused hfirst hwait
        | ok =>
          -- The attempts cover the readings that are left, and now fewer of them are.
          have hfewer := (Timing.remaining_of_await hfirst hwait).2
          have hrest : waited.remaining < attempts :=
            Nat.lt_of_lt_of_le hfewer (Nat.le_of_lt_succ h)
          exact .again hfirst hwait (ih hrest)

/-- The call of a generator that runs is a search, whatever the clock shows. -/
theorem next_searches {ids : TransactionIds} (hrunning : ids.running = true) (clock : Clock) :
    Searches ids.timing ids.lastIssued clock ((ids.next clock).1, (ids.next clock).2.2) := by
  rw [next_of_running clock hrunning]
  exact issue_searches (Nat.lt_succ_self _)

/-- When a lagging clock is not waited for, asking a generator that runs for an id ends on every clock.
What it answers is what the search without a bound on its rounds comes to, and nothing else: an id, or
that the clock lags. It takes a reading, and at most two more than the script has left. -/
theorem next_ends (ids : TransactionIds) (hrunning : ids.running = true)
    (hwait : ids.timing.startupWait = 0) (clock : Clock) :
    let answer := (ids.next clock).1
    let after := (ids.next clock).2.2
    (∀ result, Searches ids.timing ids.lastIssued clock result ↔ result = (answer, after)) ∧
    ((∃ id, answer = .ok id) ∨
      ∃ floor now, answer = .error (.clockSkew floor now ids.timing.maxSkew)) ∧
    after.script = clock.script ∧
    clock.taken < after.taken ∧ after.taken ≤ clock.taken + (clock.remaining + 2) := by
  intro answer after
  have hsearch : Searches ids.timing ids.lastIssued clock (answer, after) :=
    next_searches hrunning clock
  obtain ⟨hless, hle⟩ := hsearch.taken_bounds
  rw [Timing.polls_eq_zero hwait] at hle
  refine ⟨fun result => ⟨fun hresult => hsearch.unique hresult, ?_⟩, hsearch.answer,
    ids.next_script clock, hless, hle⟩
  rintro rfl
  exact hsearch

/-- A clock that falls back after it caught up costs another round, and one that stands still is given
up after two readings. -/
theorem next_ends_wavering :
    (Searches ⟨0, 10, 0⟩ 262143 Succession.wavering (.ok 1310720, ⟨[0, 1, 0, 5], 5⟩) ∧
      5 ≤ 0 + (Succession.wavering.remaining + 2)) ∧
    Searches ⟨0, 10, 0⟩ 262143 ⟨[7, 0], 1⟩ (.error (.clockSkew 1 0 0), ⟨[7, 0], 3⟩) ∧
      3 ≤ 1 + (Clock.remaining ⟨[7, 0], 1⟩ + 2) := by
  have hwavering : (Succession.atCarry Succession.wavering).ids.next Succession.wavering =
      (.ok 1310720, ⟨⟨0, 10, 0⟩, 1310720, 0, true⟩, ⟨[0, 1, 0, 5], 5⟩) := by rfl
  have hstill : (Succession.atCarry Succession.wavering).ids.next ⟨[7, 0], 1⟩ =
      (.error (.clockSkew 1 0 0), ⟨⟨0, 10, 0⟩, 262143, 0, true⟩, ⟨[7, 0], 3⟩) := by rfl
  obtain ⟨hgiven, -, -, -, hfive⟩ :=
    next_ends (Succession.atCarry Succession.wavering).ids rfl rfl Succession.wavering
  obtain ⟨hrefused, -, -, -, hthree⟩ :=
    next_ends (Succession.atCarry Succession.wavering).ids rfl rfl ⟨[7, 0], 1⟩
  rw [hwavering] at hgiven hfive
  rw [hstill] at hrefused hthree
  exact ⟨⟨(hgiven _).mpr rfl, hfive⟩, (hrefused _).mpr rfl, hthree⟩

end TransactionIds

end EntityCatalog
