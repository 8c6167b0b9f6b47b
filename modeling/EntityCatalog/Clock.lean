/-!
# Clocks

A clock is the script of its readings, in milliseconds, and the number of readings taken from it
so far. When the script is used up the last reading repeats for ever.
-/

namespace EntityCatalog

/-- A script of readings, of which the first `taken` have been used. -/
structure Clock where
  script : List UInt64
  taken : Nat := 0
deriving DecidableEq, Repr

namespace Clock

/-- The clock that gives the readings in order and then repeats the last one. -/
def ofReadings (readings : List UInt64) : Clock := ⟨readings, 0⟩

/-- The clock that always gives the same reading. -/
def constant (reading : UInt64) : Clock := ⟨[reading], 0⟩

/-- The reading with the given number in the script, or the last one if there are not so many. -/
def reading (clock : Clock) (number : Nat) : UInt64 :=
  (clock.script[number]?).getD (clock.script.getLast?.getD 0)

/-- The reading that the clock gives next. -/
def now (clock : Clock) : UInt64 := clock.reading clock.taken

/-- One reading, and the clock after it. -/
def read (clock : Clock) : UInt64 × Clock :=
  (clock.now, { clock with taken := clock.taken + 1 })

/-- The number of readings left in the script. -/
def remaining (clock : Clock) : Nat := clock.script.length - clock.taken

end Clock

end EntityCatalog
