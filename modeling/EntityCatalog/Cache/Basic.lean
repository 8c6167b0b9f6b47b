/-!
# Bounded caches

A cache holds at most a fixed number of entries and drops the one that was used longest ago to
make room. It is kept in two tables: the entries, each with the tick of its last use, and the
recency index, which lists ticks with their keys, oldest first. An entry also expires when it
has not been used for the idle time; here that time is either zero, so that every look-up finds
its entry expired, or without end. What a time in between adds, an entry that is gone at some later
look-up, is an action of those who use the cache, who can drop an entry at any time.

Ticks and counters are natural numbers. As words of 64 bits they would come round after `2 ^ 64` uses of
one cache and not before.
-/

namespace EntityCatalog

/-- How long an entry is kept after its last use. -/
inductive Idle where
  | zero
  | endless
deriving DecidableEq, Repr

/-- The idle time of the given number of seconds. A positive time is taken for endless, and an entry that
expires within it is dropped by an action of its own. -/
def Idle.ofSeconds (seconds : UInt64) : Idle := if seconds = 0 then .zero else .endless

namespace Cache

/-- What a cache has counted since its statistics were last reset, in numbers without bound. -/
structure Stats where
  hits : Nat := 0
  misses : Nat := 0
  evictions : Nat := 0
  expirations : Nat := 0
deriving DecidableEq, Repr

/-- A cached value with the tick of its last use, a number that no later use repeats. -/
structure Slot (β : Type) where
  value : β
  tick : Nat
deriving Repr

end Cache

/-- A bounded cache with its recency index, the tick of its next use and its counters. -/
structure Cache (α β : Type) where
  capacity : Nat
  idle : Idle
  entries : List (α × Cache.Slot β)
  recency : List (Nat × α)
  nextTick : Nat
  stats : Cache.Stats

namespace Cache

variable {α β : Type} [DecidableEq α]

/-- An empty cache. It has room for one entry at least. -/
def create (capacity : Nat) (idle : Idle) : Cache α β := ⟨max capacity 1, idle, [], [], 0, {}⟩

/-- The entry of a key, whether or not it has expired. -/
def slot? (cache : Cache α β) (key : α) : Option (Slot β) :=
  (cache.entries.find? fun entry => entry.1 = key).map Prod.snd

/-- The number of entries, with those that have expired but were not looked up since. -/
def length (cache : Cache α β) : Nat := cache.entries.length

/-- Whether there is no entry. -/
def isEmpty (cache : Cache α β) : Bool := cache.length == 0

/-- Drop the entry of a key from both tables. -/
def erase (cache : Cache α β) (key : α) : Cache α β :=
  match cache.slot? key with
  | some slot =>
    { cache with
      entries := cache.entries.filter fun entry => entry.1 ≠ key
      recency := cache.recency.filter fun use => use.1 ≠ slot.tick }
  | none => cache

/-- Add an entry for a key that has none, used just now. -/
def place (cache : Cache α β) (key : α) (value : β) : Cache α β :=
  { cache with
    entries := cache.entries ++ [(key, ⟨value, cache.nextTick⟩)]
    recency := cache.recency ++ [(cache.nextTick, key)]
    nextTick := cache.nextTick + 1 }

/-- Change the counters. -/
def count (cache : Cache α β) (change : Stats → Stats) : Cache α β :=
  { cache with stats := change cache.stats }

/-- Look a key up. A hit is the most recent use; an expired entry is dropped. -/
def get (cache : Cache α β) (key : α) : Option β × Cache α β :=
  match cache.slot? key with
  | none => (none, cache.count fun stats => { stats with misses := stats.misses + 1 })
  | some slot =>
    match cache.idle with
    | .zero =>
      (none, (cache.erase key).count fun stats =>
        { stats with expirations := stats.expirations + 1, misses := stats.misses + 1 })
    | .endless =>
      (some slot.value, ((cache.erase key).place key slot.value).count fun stats =>
        { stats with hits := stats.hits + 1 })

/-- Drop entries along a recency index, oldest first, until there is room for one more. -/
def evict : (oldest : List (Nat × α)) → Cache α β → Cache α β
  | [], cache => cache
  | (_, key) :: rest, cache =>
    if cache.length < cache.capacity then cache
    else
      evict rest
        { cache with
          entries := cache.entries.filter fun entry => entry.1 ≠ key
          recency := rest
          stats := { cache.stats with evictions := cache.stats.evictions + 1 } }

/-- Store a value for a key, in place of its old value, and evict if the cache is full. -/
def insert (cache : Cache α β) (key : α) (value : β) : Cache α β :=
  let cleared := cache.erase key
  (evict cleared.recency cleared).place key value

/-- Drop a key: whether it was cached, and the cache without it. -/
def remove (cache : Cache α β) (key : α) : Bool × Cache α β :=
  ((cache.slot? key).isSome, cache.erase key)

/-- Set every counter to zero. -/
def resetStats (cache : Cache α β) : Cache α β := { cache with stats := {} }

end Cache

end EntityCatalog
