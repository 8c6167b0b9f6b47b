import EntityCatalog.TransactionIds.Basic
import EntityCatalog.Proofs.Bytes.Word
import EntityCatalog.Proofs.Rows.Content

/-!
# One more id

As long as the clock shows less than `2 ^ 46` milliseconds and the last id is not the greatest
word, the next id is the greater of the last id plus one and the time with an empty counter. The
generator keeps everything else, and what it reads of the mark is what was written last.
-/

namespace EntityCatalog

/-- The number of milliseconds whose ids fit in a word, `2 ^ 46`. -/
def timeLimit : Nat := 70368744177664

/-- Every reading of a clock is below the limit of times. -/
def Clock.InTime (clock : Clock) : Prop := ∀ reading ∈ clock.script, reading.toNat < timeLimit

/-- A clock that stands still in time. -/
theorem Clock.InTime.constant {now : UInt64} (h : now.toNat < timeLimit) :
    (Clock.constant now).InTime := by
  intro reading hreading
  rw [List.mem_singleton.mp hreading]
  exact h

/-- A clock in time shows a time below the limit. -/
theorem Clock.InTime.now_lt {clock : Clock} (h : clock.InTime) :
    clock.now.toNat < timeLimit := by
  rw [Clock.now, Clock.reading]
  cases hreading : clock.script[clock.taken]? with
  | some reading => exact h reading (List.mem_of_getElem? hreading)
  | none =>
    cases hlast : clock.script.getLast? with
    | none => decide
    | some last => exact h last (List.mem_of_getLast? hlast)

/-- Being in time depends on the script alone. -/
theorem Clock.InTime.congr {clock clock' : Clock} (h : clock.InTime)
    (hscript : clock'.script = clock.script) : clock'.InTime := by
  rw [Clock.InTime, hscript]
  exact h

/-- Reading a clock does not change its script. -/
@[simp] theorem Clock.read_script (clock : Clock) : clock.read.2.script = clock.script := rfl

namespace Timing

/-- Waiting ends at a reading that is tolerated. -/
theorem await_of_tolerates {timing : Timing} {floor : UInt64} (polls : Nat) {clock : Clock}
    (h : timing.tolerates floor clock.now = true) :
    timing.await floor polls clock = (.ok (), clock.read.2) := by
  cases polls <;> simp [await, Clock.read, h]

/-- Waiting goes on after a reading that is not tolerated. -/
theorem await_of_not_tolerates {timing : Timing} {floor : UInt64} (polls : Nat) {clock : Clock}
    (h : timing.tolerates floor clock.now = false) :
    timing.await floor (polls + 1) clock = timing.await floor polls clock.read.2 := by
  rw [await]
  simp [Clock.read, h]

/-- Waiting without a further look takes one reading. -/
theorem await_zero (timing : Timing) (floor : UInt64) (clock : Clock) :
    timing.await floor 0 clock =
      if timing.tolerates floor clock.now then (.ok (), clock.read.2)
      else (.error (.clockSkew floor clock.now timing.maxSkew), clock.read.2) := rfl

/-- Waiting reads the clock and keeps its script. -/
theorem await_script (timing : Timing) (floor : UInt64) (polls : Nat) (clock : Clock) :
    (timing.await floor polls clock).2.script = clock.script := by
  induction polls generalizing clock with
  | zero =>
    rw [await_zero]
    split <;> rfl
  | succ polls ih =>
    cases htolerated : timing.tolerates floor clock.now with
    | true => rw [await_of_tolerates (polls + 1) htolerated, Clock.read_script]
    | false => rw [await_of_not_tolerates polls htolerated, ih, Clock.read_script]

/-- Waiting for the clock fails only because it lags behind the time that is waited for. -/
theorem await_error {timing : Timing} {floor : UInt64} {polls : Nat} {clock : Clock} {fault : Error}
    (h : (timing.await floor polls clock).1 = .error fault) :
    ∃ now, fault = .clockSkew floor now timing.maxSkew := by
  induction polls generalizing clock with
  | zero =>
    rw [await_zero] at h
    split at h
    · exact absurd h (by simp)
    · exact ⟨_, (Except.error.inj h).symm⟩
  | succ polls ih =>
    cases htolerated : timing.tolerates floor clock.now with
    | true =>
      rw [await_of_tolerates (polls + 1) htolerated] at h
      exact absurd h (by simp)
    | false =>
      rw [await_of_not_tolerates polls htolerated] at h
      exact ih h

end Timing

namespace TransactionIds

/-- The greatest word, after which no id can follow. -/
def lastWord : UInt64 := 18446744073709551615

/-- The greater of two words, as a natural. -/
theorem toNat_max (a b : UInt64) : (max a b).toNat = max a.toNat b.toNat := by
  change (if a ≤ b then b else a).toNat = _
  split <;> rename_i h <;> rw [UInt64.le_iff_toNat_le] at h <;> omega

/-- The greater of two words is one of them. -/
theorem max_eq_or (a b : UInt64) : max a b = a ∨ max a b = b := by
  change (if a ≤ b then b else a) = a ∨ (if a ≤ b then b else a) = b
  split
  · exact Or.inr rfl
  · exact Or.inl rfl

/-- The time of an id is what its upper bits count. -/
theorem toNat_millis (id : UInt64) : (millis id).toNat = id.toNat / 2 ^ 18 := by
  rw [millis, UInt64.toNat_shiftRight, Nat.shiftRight_eq_div_pow]
  rfl

/-- A time below the limit keeps all its bits above the counter. -/
theorem toNat_shiftLeft_counterBits {now : UInt64} (h : now.toNat < timeLimit) :
    (now <<< counterBits).toNat = now.toNat * 2 ^ 18 := by
  have hshift : (now <<< counterBits).toNat = now.toNat * 2 ^ 18 % 2 ^ 64 := by
    rw [UInt64.toNat_shiftLeft, Nat.shiftLeft_eq]
    rfl
  rw [hshift]
  apply Nat.mod_eq_of_lt
  rw [timeLimit] at h
  omega

/-- The id that follows is the greater of the last one plus one and the time of the clock. -/
theorem toNat_successor {last now : UInt64} (hnow : now.toNat < timeLimit) (hlast : last ≠ lastWord) :
    (successor last now).toNat = max (last.toNat + 1) (now.toNat * 2 ^ 18) := by
  have hsucc : (last + 1).toNat = last.toNat + 1 := by
    have hne : last.toNat ≠ 2 ^ 64 - 1 := fun heq => hlast (UInt64.toNat_inj.mp heq)
    have hlt := last.toNat_lt
    rw [UInt64.toNat_add, UInt64.toNat_one]
    apply Nat.mod_eq_of_lt
    omega
  rw [successor]
  split
  · rename_i hless
    rw [UInt64.lt_iff_toNat_lt, toNat_millis] at hless
    rw [toNat_shiftLeft_counterBits hnow]
    omega
  · rename_i hless
    rw [UInt64.lt_iff_toNat_lt, toNat_millis] at hless
    rw [hsucc]
    omega

/-- An id comes after the last one unless that is the last of all. -/
theorem lt_successor {last now : UInt64} (hnow : now.toNat < timeLimit) (hlast : last ≠ lastWord) :
    last < successor last now := by
  rw [UInt64.lt_iff_toNat_lt, toNat_successor hnow hlast]
  omega

/-- An id that is tolerated at the first reading is given at once. -/
theorem issue_succ_of_tolerates {timing : Timing} {last : UInt64} (attempts : Nat) {clock : Clock}
    (h : timing.tolerates (millis (successor last clock.now)) clock.now = true) :
    issue timing last (attempts + 1) clock = (.ok (successor last clock.now), clock.read.2) := by
  simp [issue, Clock.read, h]

/-- Another id waits for the clock before the next attempt. -/
theorem issue_succ_of_not_tolerates {timing : Timing} {last : UInt64} (attempts : Nat) {clock : Clock}
    (h : ¬ timing.tolerates (millis (successor last clock.now)) clock.now = true) :
    issue timing last (attempts + 1) clock =
      match timing.await (millis (successor last clock.now)) timing.polls clock.read.2 with
      | (.ok (), clock) => issue timing last attempts clock
      | (.error fault, clock) => (.error fault, clock) := by
  simp only [issue, Clock.read]
  exact if_neg h

/-- Looking for the next id keeps the script of the clock. -/
theorem issue_script (timing : Timing) (last : UInt64) (attempts : Nat) (clock : Clock) :
    (issue timing last attempts clock).2.script = clock.script := by
  induction attempts generalizing clock with
  | zero => rfl
  | succ attempts ih =>
    by_cases h : timing.tolerates (millis (successor last clock.now)) clock.now = true
    · rw [issue_succ_of_tolerates attempts h, Clock.read_script]
    · have hscript := timing.await_script (millis (successor last clock.now)) timing.polls clock.read.2
      rw [issue_succ_of_not_tolerates attempts h]
      cases hwait : timing.await (millis (successor last clock.now)) timing.polls clock.read.2 with
      | mk outcome waited =>
        rw [hwait] at hscript
        cases outcome with
        | ok => exact (ih waited).trans hscript
        | error fault => exact hscript

/-- An id that is found follows the last one at some reading of the clock. -/
theorem issue_eq_successor {timing : Timing} {last id : UInt64} {attempts : Nat} {clock : Clock}
    (hclock : clock.InTime) (h : (issue timing last attempts clock).1 = .ok id) :
    ∃ now : UInt64, now.toNat < timeLimit ∧ id = successor last now := by
  induction attempts generalizing clock with
  | zero => exact absurd h (by simp [issue])
  | succ attempts ih =>
    by_cases htolerated :
      timing.tolerates (millis (successor last clock.now)) clock.now = true
    · rw [issue_succ_of_tolerates attempts htolerated] at h
      exact ⟨clock.now, hclock.now_lt, (Except.ok.inj h).symm⟩
    · have hscript := timing.await_script (millis (successor last clock.now)) timing.polls clock.read.2
      rw [issue_succ_of_not_tolerates attempts htolerated] at h
      cases hwait : timing.await (millis (successor last clock.now)) timing.polls clock.read.2 with
      | mk outcome waited =>
        rw [hwait] at h hscript
        cases outcome with
        | ok => exact ih (hclock.congr hscript) h
        | error fault => exact absurd h (by simp)

/-- Looking for the next id fails only because the clock lags. -/
theorem issue_error {timing : Timing} {last : UInt64} {attempts : Nat} {clock : Clock}
    {fault : Error} (h : (issue timing last attempts clock).1 = .error fault) :
    ∃ floor now skew, fault = .clockSkew floor now skew := by
  induction attempts generalizing clock with
  | zero => exact ⟨_, _, _, (Except.error.inj h).symm⟩
  | succ attempts ih =>
    by_cases htolerated :
      timing.tolerates (millis (successor last clock.now)) clock.now = true
    · rw [issue_succ_of_tolerates attempts htolerated] at h
      exact absurd h (by simp)
    · rw [issue_succ_of_not_tolerates attempts htolerated] at h
      cases hwait : timing.await (millis (successor last clock.now)) timing.polls clock.read.2 with
      | mk outcome waited =>
        rw [hwait] at h
        cases outcome with
        | ok => exact ih h
        | error fault' =>
          obtain rfl := Except.error.inj h
          obtain ⟨now, hfault⟩ := Timing.await_error (congrArg Prod.fst hwait)
          exact ⟨_, now, _, hfault⟩

/-- What asking for an id does: either the id is new, or the generator is as it was. -/
theorem next_cases (ids : TransactionIds) {clock : Clock} (hclock : clock.InTime)
    (hlast : ids.lastIssued ≠ lastWord) :
    (∃ id, (ids.next clock).1 = .ok id ∧ ids.running = true ∧ ids.lastIssued < id ∧
      (ids.next clock).2.1 = { ids with lastIssued := id }) ∨
    ∃ fault, (ids.next clock).1 = .error fault ∧ (ids.next clock).2.1 = ids := by
  rw [next]
  split
  · rename_i hrunning
    cases hissue : issue ids.timing ids.lastIssued (clock.remaining + 1) clock with
    | mk outcome after =>
      cases outcome with
      | error fault => exact Or.inr ⟨fault, rfl, rfl⟩
      | ok id =>
        obtain ⟨now, hnow, rfl⟩ := issue_eq_successor hclock (congrArg Prod.fst hissue)
        exact Or.inl ⟨_, rfl, hrunning, lt_successor hnow hlast, rfl⟩
  · exact Or.inr ⟨_, rfl, rfl⟩

/-- Drawing an id does not change the script of the clock. -/
theorem next_script (ids : TransactionIds) (clock : Clock) :
    (ids.next clock).2.2.script = clock.script := by
  rw [next]
  split
  · have hscript := issue_script ids.timing ids.lastIssued (clock.remaining + 1) clock
    split <;> rename_i hissue <;> rw [hissue] at hscript <;> exact hscript
  · rfl

/-- An id is refused only when the generator does not run or the clock lags. -/
theorem next_error {ids : TransactionIds} {clock : Clock} {fault : Error}
    (h : (ids.next clock).1 = .error fault) :
    fault = .notRunning ∨ ∃ floor now skew, fault = .clockSkew floor now skew := by
  rw [next] at h
  split at h
  · split at h
    · exact absurd h (by simp)
    · rename_i hissue
      obtain rfl := Except.error.inj h
      exact Or.inr (issue_error (congrArg Prod.fst hissue))
  · exact Or.inl (Except.error.inj h).symm

end TransactionIds

namespace MarkStore

/-- The durable mark, which is zero as long as none was written. -/
def durable (store : MarkStore) : UInt64 :=
  match mark? store.rows with
  | .ok found => found.getD 0
  | .error _ => 0

/-- A mark that was written is the durable one. -/
theorem durable_insert (rows : Rows) (mark : UInt64) (refusals : Nat) :
    durable ⟨rows.insert Layout.markKey (wordBytes mark), refusals⟩ = mark := by
  simp [durable, mark?]

/-- A write of the mark is made or refused; a refused one changes no row. -/
theorem write_cases (store : MarkStore) (mark : UInt64) :
    ((store.write mark).1 = .ok () ∧ (store.write mark).2.durable = mark) ∨
    (∃ fault, (store.write mark).1 = .error fault) ∧ (store.write mark).2.rows = store.rows := by
  rw [write]
  split
  · exact Or.inl ⟨rfl, durable_insert store.rows mark store.refusals⟩
  · exact Or.inr ⟨⟨_, rfl⟩, rfl⟩

/-- The durable mark is read from the mark row alone. -/
theorem durable_of_get? {store store' : MarkStore}
    (h : store'.rows.get? Layout.markKey = store.rows.get? Layout.markKey) :
    store'.durable = store.durable := by
  rw [durable, durable, mark?, mark?, h]

/-- The durable mark depends on the rows alone. -/
theorem durable_congr {store store' : MarkStore} (h : store'.rows = store.rows) :
    store'.durable = store.durable :=
  durable_of_get? (congrArg (·.get? Layout.markKey) h)

end MarkStore

end EntityCatalog
