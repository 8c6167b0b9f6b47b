import EntityCatalog.Proofs.TransactionIds.Succession

/-!
# How far ids run ahead of the clock

When a lagging clock is not waited for, the clock is read until the next id is tolerated at the last
reading, or until two readings in a row show that it is not. So the id that is given is the greater of
the last id plus one and the time of the last reading, and it lies in the bracket from that time to the
tolerance after it. An id is refused only because the last id plus one lies above the bracket of the
last reading. Readings in between may fall in and out of the bracket and leave no trace.
-/

namespace EntityCatalog

namespace Clock

/-- The reading that a clock gave last. -/
def last (clock : Clock) : UInt64 := clock.reading (clock.taken - 1)

/-- A used-up script repeats its last reading. -/
theorem now_read_of_remaining_eq_zero {clock : Clock} (h : clock.remaining = 0) :
    clock.read.2.now = clock.now := by
  have hlength : clock.script.length ≤ clock.taken := Nat.sub_eq_zero_iff_le.mp h
  have hnext : clock.script.length ≤ clock.taken + 1 := Nat.le_succ_of_le hlength
  change clock.reading (clock.taken + 1) = clock.reading clock.taken
  rw [reading, reading, List.getElem?_eq_none hlength, List.getElem?_eq_none hnext]

/-- A clock in time gave a reading below the limit last. -/
theorem InTime.last_lt {clock : Clock} (h : clock.InTime) : clock.last.toNat < timeLimit := by
  have hbefore : InTime { clock with taken := clock.taken - 1 } := h
  exact hbefore.now_lt

end Clock

namespace Timing

/-- The latest time that ids may have when the clock shows `now`: the tolerance after it, or the
greatest word if the sum is no word. -/
def reach (timing : Timing) (now : UInt64) : UInt64 :=
  if now.toNat + timing.maxSkew.toNat < 2 ^ 64 then now + timing.maxSkew
  else TransactionIds.lastWord

/-- The reach of a clock is its reading with the tolerance on top, and the last word at most. -/
theorem toNat_reach (timing : Timing) (now : UInt64) :
    (timing.reach now).toNat = min (now.toNat + timing.maxSkew.toNat) (2 ^ 64 - 1) := by
  rw [reach]
  split
  · rename_i hsum
    rw [UInt64.toNat_add, Nat.mod_eq_of_lt hsum]
    omega
  · rename_i hsum
    have hgreatest : TransactionIds.lastWord.toNat = 2 ^ 64 - 1 := rfl
    omega

/-- A time is tolerated up to the reach of the clock. -/
theorem tolerates_iff (timing : Timing) (floor now : UInt64) :
    timing.tolerates floor now = true ↔ floor ≤ timing.reach now := by
  have hfloor := floor.toNat_lt
  rw [tolerates, decide_eq_true_iff, UInt64.le_iff_toNat_le, toNat_reach]
  omega

/-- A lag is not tolerated exactly if the reach of the clock ends before the floor. -/
theorem tolerates_eq_false_iff (timing : Timing) (floor now : UInt64) :
    timing.tolerates floor now = false ↔ timing.reach now < floor := by
  rw [← Bool.not_eq_true, tolerates_iff, UInt64.not_le]

/-- The time of the clock itself is always tolerated. -/
theorem tolerates_self (timing : Timing) (now : UInt64) : timing.tolerates now now = true :=
  decide_eq_true (Nat.le_add_right _ _)

/-- Without a time to wait the clock is read once. -/
theorem polls_eq_zero {timing : Timing} (h : timing.startupWait = 0) : timing.polls = 0 := by
  rw [polls, h]
  rfl

end Timing

namespace TransactionIds

/-- The time of an id that takes the time of the clock is that time. -/
theorem millis_shiftLeft {now : UInt64} (h : now.toNat < timeLimit) :
    millis (now <<< counterBits) = now := by
  rw [← UInt64.toNat_inj, toNat_millis, toNat_shiftLeft_counterBits h]
  exact Nat.mul_div_cancel _ (by decide)

/-- Later ids have later times. -/
theorem millis_le_millis {a b : UInt64} (h : a ≤ b) : millis a ≤ millis b := by
  rw [UInt64.le_iff_toNat_le] at h ⊢
  rw [toNat_millis, toNat_millis]
  exact Nat.div_le_div_right h

/-- Only an id that counts on from the last one is ever out of reach. -/
theorem successor_of_not_tolerates {timing : Timing} {last now : UInt64} (hnow : now.toNat < timeLimit)
    (h : timing.tolerates (millis (successor last now)) now = false) :
    successor last now = last + 1 := by
  rw [successor] at h ⊢
  split
  · rename_i hless
    rw [if_pos hless, millis_shiftLeft hnow, timing.tolerates_self] at h
    exact absurd h (by simp)
  · rfl

/-- The next id does not come before the last one plus one, nor before the time of the clock. -/
theorem le_successor {last now : UInt64} (hnow : now.toNat < timeLimit) (hlast : last ≠ lastWord) :
    last + 1 ≤ successor last now ∧ now ≤ millis (successor last now) := by
  have hid := toNat_successor hnow hlast
  have hstill : successor last 0 = last + 1 := if_neg (UInt64.not_lt.mpr UInt64.zero_le)
  have hnext : (last + 1).toNat = last.toNat + 1 := by
    rw [← hstill, toNat_successor (by decide) hlast]
    simp
  refine ⟨?_, ?_⟩
  · rw [UInt64.le_iff_toNat_le, hid, hnext]
    exact Nat.le_max_left _ _
  · rw [UInt64.le_iff_toNat_le, toNat_millis, hid, Nat.le_div_iff_mul_le (by decide)]
    exact Nat.le_max_right _ _

/-- How a search for the next id ends that does not wait: with the id that follows the last one at the
last reading, which tolerates it, or because the last reading does not even tolerate the last id plus
one. -/
inductive Settled (timing : Timing) (last : UInt64) (clock : Clock) : Except Error UInt64 → Prop where
  | given (h : timing.tolerates (millis (successor last clock.last)) clock.last = true) :
      Settled timing last clock (.ok (successor last clock.last))
  | refused (h : timing.tolerates (millis (last + 1)) clock.last = false) :
      Settled timing last clock (.error (.clockSkew (millis (last + 1)) clock.last timing.maxSkew))

/-- What an id that is given satisfies. -/
theorem Settled.of_ok {timing : Timing} {last id : UInt64} {clock : Clock}
    (h : Settled timing last clock (.ok id)) :
    id = successor last clock.last ∧ millis id ≤ timing.reach clock.last := by
  cases h with
  | given htolerated => exact ⟨rfl, (timing.tolerates_iff _ _).mp htolerated⟩

/-- What a refusal says. -/
theorem Settled.of_error {timing : Timing} {last : UInt64} {clock : Clock} {fault : Error}
    (h : Settled timing last clock (.error fault)) :
    fault = .clockSkew (millis (last + 1)) clock.last timing.maxSkew ∧
      timing.reach clock.last < millis (last + 1) := by
  cases h with
  | refused hleast => exact ⟨rfl, (timing.tolerates_eq_false_iff _ _).mp hleast⟩

/-- A search is refused exactly when the last reading does not tolerate the last id plus one. -/
theorem Settled.refused_iff {timing : Timing} {last : UInt64} {clock : Clock}
    {answer : Except Error UInt64} (h : Settled timing last clock answer)
    (hclock : clock.last.toNat < timeLimit) (hlast : last ≠ lastWord) :
    (∃ fault, answer = .error fault) ↔ timing.reach clock.last < millis (last + 1) := by
  rw [← timing.tolerates_eq_false_iff]
  cases h with
  | given htolerated =>
    refine ⟨fun ⟨fault, hfault⟩ => absurd hfault (by simp), fun hleast => ?_⟩
    rw [timing.tolerates_iff] at htolerated
    rw [timing.tolerates_eq_false_iff] at hleast
    have hle := millis_le_millis (le_successor hclock hlast).1
    exact absurd (UInt64.le_trans hle htolerated) (UInt64.not_le.mpr hleast)
  | refused hleast => exact ⟨fun _ => hleast, fun _ => ⟨_, rfl⟩⟩

/-- One attempt for each reading of the script and one more are enough for a search to settle, and it
takes a reading. -/
theorem issue_settled {timing : Timing} (last : UInt64) {attempts : Nat} {clock : Clock}
    (hpolls : timing.polls = 0) (hclock : clock.InTime) (hattempts : clock.remaining < attempts) :
    Settled timing last (issue timing last attempts clock).2 (issue timing last attempts clock).1 ∧
      clock.taken < (issue timing last attempts clock).2.taken := by
  induction attempts generalizing clock with
  | zero => exact absurd hattempts (Nat.not_lt_zero _)
  | succ attempts ih =>
    cases hfirst : timing.tolerates (millis (successor last clock.now)) clock.now with
    | true =>
      rw [issue_succ_of_tolerates attempts hfirst]
      exact ⟨.given hfirst, Nat.lt_succ_self _⟩
    | false =>
      have hnext := successor_of_not_tolerates hclock.now_lt hfirst
      rw [issue_succ_of_not_tolerates attempts (Bool.eq_false_iff.mp hfirst), hpolls,
        Timing.await_zero]
      rw [hnext] at hfirst ⊢
      cases hsecond : timing.tolerates (millis (last + 1)) clock.read.2.now with
      | true =>
        -- The clock caught up between two readings, so its script was not used up.
        have hmoved : clock.remaining ≠ 0 := by
          intro hstill
          rw [Clock.now_read_of_remaining_eq_zero hstill, hfirst] at hsecond
          exact absurd hsecond (by simp)
        have hrest : clock.read.2.read.2.remaining < attempts := by
          simp only [Clock.remaining, Clock.read] at hmoved hattempts ⊢
          omega
        have htwice : clock.taken < clock.read.2.read.2.taken := Nat.lt_add_of_pos_right Nat.two_pos
        have hlater : clock.read.2.read.2.InTime := hclock.congr rfl
        obtain ⟨hsettled, htaken⟩ := ih hlater hrest
        exact ⟨hsettled, Nat.lt_trans htwice htaken⟩
      | false => exact ⟨.refused hsecond, Nat.lt_add_of_pos_right Nat.two_pos⟩

/-- What a generator that runs makes of a search. -/
theorem next_of_running {ids : TransactionIds} (clock : Clock) (h : ids.running = true) :
    ids.next clock =
      ((issue ids.timing ids.lastIssued (clock.remaining + 1) clock).1,
        match (issue ids.timing ids.lastIssued (clock.remaining + 1) clock).1 with
        | .ok id => { ids with lastIssued := id }
        | .error _ => ids,
        (issue ids.timing ids.lastIssued (clock.remaining + 1) clock).2) := by
  rw [next, if_pos h]
  cases issue ids.timing ids.lastIssued (clock.remaining + 1) clock with
  | mk outcome after => cases outcome <;> rfl

/-- A call that does not wait reads the clock and keeps its script. An id that it gives follows the
last one at the last reading and is tolerated there; otherwise the last id plus one is not, and the
generator is left as it is. -/
theorem next_settled {ids : TransactionIds} {clock : Clock} (hrunning : ids.running = true)
    (hwait : ids.timing.startupWait = 0) (hclock : clock.InTime) :
    (clock.taken < (ids.next clock).2.2.taken ∧ (ids.next clock).2.2.script = clock.script) ∧
    Settled ids.timing ids.lastIssued (ids.next clock).2.2 (ids.next clock).1 ∧
    (∀ id, (ids.next clock).1 = .ok id → (ids.next clock).2.1 = { ids with lastIssued := id }) ∧
    ∀ fault, (ids.next clock).1 = .error fault → (ids.next clock).2.1 = ids := by
  obtain ⟨hsettled, htaken⟩ := issue_settled ids.lastIssued (Timing.polls_eq_zero hwait) hclock
    (Nat.lt_succ_self clock.remaining)
  have hscript := ids.next_script clock
  rw [next_of_running clock hrunning] at hscript ⊢
  refine ⟨⟨htaken, hscript⟩, hsettled, fun id hid => ?_, fun fault hfault => ?_⟩
  · dsimp only at hid ⊢
    rw [hid]
  · dsimp only at hfault ⊢
    rw [hfault]

end TransactionIds

namespace Succession

/-- When a lagging clock is not waited for, a generator that runs gives the greater of the last id plus
one and the time of the last reading, which lies between that reading and its reach. It refuses an id,
and changes nothing, only because the last id plus one is out of reach of the last reading. When the
clock stands still this tells whether it gives an id. The store is left as it is in any case. -/
theorem next_within_reach (state : Succession) (hrunning : state.ids.running = true)
    (hlast : state.ids.lastIssued ≠ TransactionIds.lastWord)
    (hwait : state.ids.timing.startupWait = 0) (hclock : state.clock.InTime) :
    let answer := (state.ids.next state.clock).1
    let after := (state.step .next).2
    let now := after.clock.last
    let least := TransactionIds.millis (state.ids.lastIssued + 1)
    (state.clock.taken < after.clock.taken ∧ after.clock.script = state.clock.script) ∧
    after.store = state.store ∧
    (∀ id, answer = .ok id →
      id.toNat = max (state.ids.lastIssued.toNat + 1) (now.toNat * 2 ^ 18) ∧
      state.ids.lastIssued < id ∧ now ≤ TransactionIds.millis id ∧
      TransactionIds.millis id ≤ state.ids.timing.reach now ∧
      after.ids = { state.ids with lastIssued := id }) ∧
    (∀ fault, answer = .error fault →
      fault = .clockSkew least now state.ids.timing.maxSkew ∧ state.ids.timing.reach now < least ∧
      after.ids = state.ids) ∧
    ∀ still, (∀ number, state.clock.taken ≤ number → state.clock.reading number = still) →
      ((∃ fault, answer = .error fault) ↔ state.ids.timing.reach still < least) := by
  intro answer after now least
  obtain ⟨⟨htaken, hscript⟩, hsettled, hgiven, hrefused⟩ :=
    TransactionIds.next_settled hrunning hwait hclock
  have hnow : now.toNat < timeLimit := (hclock.congr hscript).last_lt
  have hiff := hsettled.refused_iff hnow hlast
  change TransactionIds.Settled _ _ after.clock answer at hsettled
  refine ⟨⟨htaken, hscript⟩, rfl, fun id hid => ?_, fun fault hfault => ?_, fun still hstill => ?_⟩
  · obtain ⟨hid', hreach⟩ := TransactionIds.Settled.of_ok (hid ▸ hsettled)
    refine ⟨?_, ?_, ?_, hreach, hgiven id hid⟩
    · rw [hid']
      exact TransactionIds.toNat_successor hnow hlast
    · rw [hid']
      exact TransactionIds.lt_successor hnow hlast
    · rw [hid']
      exact (TransactionIds.le_successor hnow hlast).2
  · obtain ⟨hfault', hbeyond⟩ := TransactionIds.Settled.of_error (hfault ▸ hsettled)
    exact ⟨hfault', hbeyond, hrefused fault hfault⟩
  · -- The last reading is one of those that were still to come, and these are all the same.
    have hsame : now = still := by
      rw [← hstill (after.clock.taken - 1) (Nat.le_sub_one_of_lt htaken)]
      change Clock.reading after.clock _ = _
      rw [Clock.reading, Clock.reading, show after.clock.script = state.clock.script from hscript]
    rw [← hsame]
    exact hiff

/-- A generator whose last id is the last one of its millisecond and that tolerates no lag. -/
def atCarry (clock : Clock) : Succession :=
  ⟨0, ⟨⟨0, 10, 0⟩, 262143, 0, true⟩, ⟨.empty, 0⟩, clock⟩

/-- A clock that catches up, falls back and catches up again. -/
def wavering : Clock := .ofReadings [0, 1, 0, 5]

/-- Without tolerance a wavering clock is waited for until it catches up, and a clock that stands still
is not. -/
theorem next_within_reach_atCarry :
    (((atCarry wavering).ids.next wavering).1 = .ok 1310720 ∧
      ((atCarry wavering).step .next).2.clock.last = 5 ∧
      (1310720 : UInt64).toNat = max (262143 + 1) (5 * 2 ^ 18) ∧
      TransactionIds.millis 1310720 ≤ (atCarry wavering).ids.timing.reach 5) ∧
    ((atCarry (.constant 0)).ids.next (.constant 0)).1 = .error (.clockSkew 1 0 0) ∧
      (atCarry (.constant 0)).ids.timing.reach 0 < TransactionIds.millis 262144 ∧
      ((atCarry (.constant 0)).step .next).2.ids = (atCarry (.constant 0)).ids := by
  have hwavering : wavering.InTime := by
    have hscript : wavering.script = [0, 1, 0, 5] := rfl
    simp only [Clock.InTime, hscript, List.forall_mem_cons]
    exact ⟨by decide, by decide, by decide, by decide, fun _ h => absurd h List.not_mem_nil⟩
  have hgiven : ((atCarry wavering).ids.next wavering).1 = .ok 1310720 := by rfl
  have hrefused :
      ((atCarry (.constant 0)).ids.next (.constant 0)).1 = .error (.clockSkew 1 0 0) := by rfl
  obtain ⟨-, -, hbracket, -, -⟩ :=
    next_within_reach (atCarry wavering) rfl (by decide) rfl hwavering
  obtain ⟨-, -, -, hlag, -⟩ :=
    next_within_reach (atCarry (.constant 0)) rfl (by decide) rfl (.constant (by decide))
  obtain ⟨hid, -, -, hreach, -⟩ := hbracket _ hgiven
  obtain ⟨-, hbeyond, hids⟩ := hlag _ hrefused
  exact ⟨⟨hgiven, rfl, hid, hreach⟩, hrefused, hbeyond, hids⟩

end Succession

end EntityCatalog
