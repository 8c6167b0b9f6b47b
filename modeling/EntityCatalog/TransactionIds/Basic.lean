import EntityCatalog.Clock
import EntityCatalog.TransactionIds.Mark

/-!
# Transaction ids

A transaction id is a time in milliseconds above an 18-bit counter. Ids grow strictly. While the
clock stands still or has gone back, the next id is the last one plus one, so the time in the
ids may run ahead of the clock, by a bounded tolerance. Beyond that a new id has to wait for the
clock, and fails if the clock does not catch up.

The last id is made durable when the generator is flushed or stopped. A started generator goes
on from the durable mark.
-/

namespace EntityCatalog

/-- How far ids may run ahead of the clock, how often the mark is flushed, and how long to wait
for a clock that lags, all in milliseconds. -/
structure Timing where
  maxSkew : UInt64
  flushInterval : UInt64
  startupWait : UInt64
deriving DecidableEq, Repr

/-- A generator with the last id it gave and the last id it made durable. -/
structure TransactionIds where
  timing : Timing
  lastIssued : UInt64
  flushed : UInt64
  running : Bool
deriving DecidableEq, Repr

namespace Timing

/-- The time between two looks at a clock that lags, in milliseconds. -/
def pollInterval : Nat := 100

/-- How often the clock is looked at again while waiting. -/
def polls (timing : Timing) : Nat :=
  (timing.startupWait.toNat + (pollInterval - 1)) / pollInterval

/-- Whether ids of the time `floor` may be in use when the clock shows `now`. -/
def tolerates (timing : Timing) (floor now : UInt64) : Bool :=
  floor.toNat ≤ now.toNat + timing.maxSkew.toNat

/-- Read the clock until ids of the time `floor` are tolerated, and fail with the last reading
if they are not after the given number of further looks. -/
def await (timing : Timing) (floor : UInt64) : (polls : Nat) → Clock → Except Error Unit × Clock
  | polls, clock =>
    match clock.read with
    | (now, clock) =>
      if timing.tolerates floor now then (.ok (), clock)
      else
        match polls with
        | 0 => (.error (.clockSkew floor now timing.maxSkew), clock)
        | polls + 1 => timing.await floor polls clock

end Timing

namespace TransactionIds

/-- The number of bits of an id that count within a millisecond. -/
def counterBits : UInt64 := 18

/-- The time in an id, in milliseconds. -/
def millis (id : UInt64) : UInt64 := id >>> counterBits

/-- The counter in an id. -/
def counter (id : UInt64) : UInt64 := id &&& ((1 <<< counterBits) - 1)

/-- A generator that has not been started. -/
def create (timing : Timing) : TransactionIds := ⟨timing, 0, 0, false⟩

/-- The generator once it has taken over a mark. -/
def withMark (ids : TransactionIds) (mark : UInt64) : TransactionIds :=
  { ids with lastIssued := max ids.lastIssued mark, flushed := mark }

/-- Take over the durable mark, once the clock tolerates its time. -/
def load (ids : TransactionIds) (rows : Rows) (clock : Clock) :
    Except Error TransactionIds × Clock :=
  match MarkStore.mark? rows with
  | .error fault => (.error fault, clock)
  | .ok found =>
    let mark := found.getD 0
    let waited :=
      if mark = 0 then (.ok (), clock)
      else ids.timing.await (millis mark) ids.timing.polls clock
    match waited with
    | (.error fault, clock) => (.error fault, clock)
    | (.ok (), clock) => (.ok (ids.withMark mark), clock)

/-- Start from the durable mark, with a flusher that ticks on a thread of its own. A generator that
runs is left as it is. The system may refuse the thread and tell why: the mark has then been taken
over, but the generator does not run. -/
def start (ids : TransactionIds) (rows : Rows) (clock : Clock) (refusal : Option String) :
    Except Error Unit × TransactionIds × Clock :=
  if ids.running then (.ok (), ids, clock)
  else
    match ids.load rows clock with
    | (.error fault, clock) => (.error fault, ids, clock)
    | (.ok loaded, clock) =>
      match refusal with
      | none => (.ok (), { loaded with running := true }, clock)
      | some reason => (.error (.storage reason), loaded, clock)

/-- The id that follows `last` when the clock shows `now`. -/
def successor (last now : UInt64) : UInt64 :=
  if millis last < now then now <<< counterBits else last + 1

/-- Find the next id by reading the clock. When the id would run too far ahead, wait for the
clock and read it afresh. Each wait uses up readings of the script, and when none is left the
clock stands still, so one more attempt than there are readings is enough.

One caller asks for ids at a time. An id that was found is exchanged for the last one at once: no
other caller has moved the last id on meanwhile, and the exchange does not fail without cause. -/
def issue (timing : Timing) (last : UInt64) :
    (attempts : Nat) → Clock → Except Error UInt64 × Clock
  | 0, clock =>
    (.error (.clockSkew (millis (successor last clock.now)) clock.now timing.maxSkew), clock)
  | attempts + 1, clock =>
    match clock.read with
    | (now, clock) =>
      let id := successor last now
      if timing.tolerates (millis id) now then (.ok id, clock)
      else
        match timing.await (millis id) timing.polls clock with
        | (.ok (), clock) => issue timing last attempts clock
        | (.error fault, clock) => (.error fault, clock)

/-- The next id. -/
def next (ids : TransactionIds) (clock : Clock) : Except Error UInt64 × TransactionIds × Clock :=
  if ids.running then
    match issue ids.timing ids.lastIssued (clock.remaining + 1) clock with
    | (.ok id, clock) => (.ok id, { ids with lastIssued := id }, clock)
    | (.error fault, clock) => (.error fault, ids, clock)
  else (.error .notRunning, ids, clock)

/-- Make the last id durable, unless it is already: whether a mark was written. -/
def flush (ids : TransactionIds) (store : MarkStore) :
    Except Error Bool × TransactionIds × MarkStore :=
  if ids.lastIssued = ids.flushed then (.ok false, ids, store)
  else
    match store.write ids.lastIssued with
    | (.ok (), store) => (.ok true, { ids with flushed := ids.lastIssued }, store)
    | (.error fault, store) => (.error fault, ids, store)

/-- Stop giving ids and flush. A generator that does not run is left as it is. -/
def stop (ids : TransactionIds) (store : MarkStore) :
    Except Error Unit × TransactionIds × MarkStore :=
  if ids.running then
    match { ids with running := false }.flush store with
    | (.ok _, ids, store) => (.ok (), ids, store)
    | (.error fault, ids, store) => (.error fault, ids, store)
  else (.ok (), ids, store)

/-- Give a generator up: it is stopped, and a failure of its last flush is ignored. -/
def discard (ids : TransactionIds) (store : MarkStore) : MarkStore := (ids.stop store).2.2

/-- Let the flusher of a generator tick until a flush succeeds, at most `ticks` times. -/
def tick : (ticks : Nat) → TransactionIds → MarkStore → TransactionIds × MarkStore
  | 0, ids, store => (ids, store)
  | ticks + 1, ids, store =>
    match ids.flush store with
    | (.ok _, ids, store) => (ids, store)
    | (.error _, ids, store) => tick ticks ids store

/-- Let the given time pass, in milliseconds, for a generator that is otherwise idle. -/
def settle (ids : TransactionIds) (store : MarkStore) (duration : Nat) :
    TransactionIds × MarkStore :=
  if ids.running then tick (duration / ids.timing.flushInterval.toNat) ids store else (ids, store)

end TransactionIds

end EntityCatalog
