/-!
# Sources of surrogate ids

A source is a stream of 64-bit ids and the number of ids drawn from it so far. Any stream is a
source: it may count, repeat itself or come back to ids it gave before.
-/

namespace EntityCatalog

/-- A stream of ids, of which the first `drawn` have been used. -/
structure IdSource where
  stream : Nat → UInt64
  drawn : Nat := 0

namespace IdSource

/-- The id that the next draw gives. -/
def peek (source : IdSource) : UInt64 := source.stream source.drawn

/-- The source after one draw. -/
def advance (source : IdSource) : IdSource := { source with drawn := source.drawn + 1 }

/-- The ids that count up from `start`, modulo `2 ^ 64`. -/
def countingFrom (start : UInt64) : IdSource := ⟨fun n => start + UInt64.ofNat n, 0⟩

/-- The ids that count up after the highest id in use. -/
def resumeAfter (highest : Option UInt64) : IdSource :=
  match highest with
  | some id => countingFrom (id + 1)
  | none => countingFrom 0

/-- The given ids in order, the last of which repeats for ever. -/
def listed (ids : List UInt64) : IdSource :=
  ⟨fun n => (ids[n]?).getD (ids.getLast?.getD 0), 0⟩

/-- The next `count` ids and the source after them. -/
def take : (count : Nat) → IdSource → List UInt64 × IdSource
  | 0, source => ([], source)
  | count + 1, source =>
    let (ids, rest) := take count source.advance
    (source.peek :: ids, rest)

end IdSource

end EntityCatalog
