import EntityCatalog.Proofs.Cache.Lru

/-!
# The counters of a cache balance

A cache counts its hits, misses, evictions and expirations, and its user can keep a tally beside it: the
look-ups, the insertions of keys that were not cached, and the removals of keys that were. Since the
counters were last set to zero, every look-up was a hit or a miss, and every entry that was added is
still there, was evicted, was found expired, or was removed.
-/

namespace EntityCatalog.Cache

variable {α β : Type}

/-! ## What balances -/

/-- The entries that are there, and those that have been evicted or found expired. -/
def accounted (cache : Cache α β) : Nat :=
  cache.length + cache.stats.evictions + cache.stats.expirations

/-- What the user of a cache has counted since the counters were last set to zero, and the length that
the cache had then. -/
structure Tally where
  opening : Nat := 0
  lookups : Nat := 0
  additions : Nat := 0
  removals : Nat := 0
deriving DecidableEq, Repr

/-- The counters of a cache agree with a tally. -/
structure Tally.Balances (tally : Tally) (cache : Cache α β) : Prop where
  lookups : cache.stats.hits + cache.stats.misses = tally.lookups
  expirations : cache.stats.expirations ≤ cache.stats.misses
  entries : tally.opening + tally.additions = cache.accounted + tally.removals

/-- Where nothing is looked up, only the evictions may change, and the entries are to be accounted for. -/
theorem Tally.Balances.of_evictions {tally tally' : Tally} {cache cache' : Cache α β}
    (h : tally.Balances cache) (hlookups : tally'.lookups = tally.lookups)
    (hstats : ∃ evictions, cache'.stats = { cache.stats with evictions := evictions })
    (hentries : tally'.opening + tally'.additions = cache'.accounted + tally'.removals) :
    tally'.Balances cache' := by
  obtain ⟨evictions, hstats⟩ := hstats
  constructor
  · rw [hstats, hlookups]
    exact h.lookups
  · rw [hstats]
    exact h.expirations
  · exact hentries

/-! ## What an operation does to the number of entries -/

/-- An entry that is placed is one more to account for. -/
theorem accounted_place (cache : Cache α β) (key : α) (value : β) :
    (cache.place key value).accounted = cache.accounted + 1 := by
  simp only [accounted, length, place, List.length_append, List.length_singleton]
  omega

/-- An entry that is evicted stays accounted for. -/
theorem accounted_dropOldest {cache : Cache α β} (h : 0 < cache.length) :
    cache.dropOldest.accounted = cache.accounted := by
  simp only [accounted, length, dropOldest, List.length_tail] at h ⊢
  omega

variable [DecidableEq α] {cache : Cache α β}

namespace InStep

/-- Dropping a key takes it out of the keys. -/
theorem keys_erase (h : cache.InStep) (key : α) :
    (cache.erase key).entries.map Prod.fst = (cache.entries.map Prod.fst).erase key := by
  rw [entries_erase, h.keys.erase_eq_filter, List.filter_map]
  refine congrArg _ (List.filter_congr fun entry _ => ?_)
  rw [Function.comp_apply, bne, beq_eq_decide, decide_not]

/-- A key has one entry at most, and erasing it drops that one. -/
theorem length_erase (h : cache.InStep) (key : α) :
    (cache.erase key).length + (cache.slot? key).isSome.toNat = cache.length := by
  cases hslot : cache.slot? key with
  | none =>
    rw [Cache.erase, hslot]
    rfl
  | some slot =>
    have hmem : key ∈ cache.entries.map Prod.fst :=
      List.mem_map.mpr ⟨(key, slot), mem_of_slot? hslot, rfl⟩
    have hlength := List.length_erase_add_one hmem
    rw [← h.keys_erase key, List.length_map, List.length_map] at hlength
    exact hlength

/-- An entry that is dropped without being counted is no longer accounted for. -/
theorem accounted_erase (h : cache.InStep) (key : α) :
    (cache.erase key).accounted + (cache.slot? key).isSome.toNat = cache.accounted := by
  obtain ⟨-, -, -, hstats⟩ := erase_frame cache key
  have hlength := h.length_erase key
  rw [accounted, accounted, hstats]
  omega

/-- What is evicted is counted. -/
theorem accounted_evict (h : cache.InStep) :
    (Cache.evict cache.recency cache).accounted = cache.accounted := by
  rw [h.evict_eq]
  split
  · rfl
  · rename_i hfull
    exact accounted_dropOldest (Nat.lt_of_lt_of_le h.roomy (Nat.le_of_not_lt hfull))

/-- A look-up adds and loses nothing but an expired entry, which is counted. -/
theorem accounted_get (h : cache.InStep) (key : α) :
    (cache.get key).2.accounted = cache.accounted := by
  cases hslot : cache.slot? key with
  | none =>
    rw [get_of_none hslot]
    rfl
  | some slot =>
    have herase := h.accounted_erase key
    rw [hslot] at herase
    cases hidle : cache.idle with
    | zero =>
      rw [get_of_zero hslot hidle]
      exact herase
    | endless =>
      rw [get_of_endless hslot hidle]
      exact ((cache.erase key).accounted_place key slot.value).trans herase

/-- An insertion adds one entry, unless it takes the place of an old one. -/
theorem accounted_insert (h : cache.InStep) (key : α) (value : β) :
    (cache.insert key value).accounted = cache.accounted + (cache.slot? key).isNone.toNat := by
  have herase := h.accounted_erase key
  rw [Cache.insert, accounted_place, (h.erase key).accounted_evict]
  cases hslot : cache.slot? key with
  | none =>
    rw [hslot] at herase
    exact congrArg (· + 1) herase
  | some slot =>
    rw [hslot] at herase
    exact herase

/-- An insertion counts nothing but evictions. -/
theorem stats_insert (h : cache.InStep) (key : α) (value : β) :
    ∃ evictions, (cache.insert key value).stats = { cache.stats with evictions := evictions } := by
  obtain ⟨-, -, -, hstats⟩ := erase_frame cache key
  rw [Cache.insert, (h.erase key).evict_eq, ← hstats]
  split
  · exact ⟨_, rfl⟩
  · exact ⟨_, rfl⟩

end InStep

/-- A look-up is counted as a miss, as a miss that found an expired entry, or as a hit. -/
theorem stats_get (cache : Cache α β) (key : α) :
    (cache.get key).2.stats = { cache.stats with misses := cache.stats.misses + 1 } ∨
    (cache.get key).2.stats =
      { cache.stats with
        expirations := cache.stats.expirations + 1, misses := cache.stats.misses + 1 } ∨
    (cache.get key).2.stats = { cache.stats with hits := cache.stats.hits + 1 } := by
  obtain ⟨-, -, -, hstats⟩ := erase_frame cache key
  cases hslot : cache.slot? key with
  | none =>
    rw [get_of_none hslot]
    exact Or.inl rfl
  | some slot =>
    cases hidle : cache.idle with
    | zero =>
      rw [get_of_zero hslot hidle, ← hstats]
      exact Or.inr (Or.inl rfl)
    | endless =>
      rw [get_of_endless hslot hidle, ← hstats]
      exact Or.inr (Or.inr rfl)

/-! ## Keeping the tally -/

/-- What may happen to a cache: it is used, or its counters are set to zero. -/
inductive Event (α β : Type) where
  | use (operation : Operation α β)
  | reset
deriving DecidableEq, Repr

/-- A cache after an event. -/
def happen : Event α β → Cache α β → Cache α β
  | .use operation, cache => (cache.perform operation).2
  | .reset, cache => cache.resetStats

/-- A cache after a list of events in turn. -/
def happenAll : List (Event α β) → Cache α β → Cache α β
  | [], cache => cache
  | event :: rest, cache => happenAll rest (happen event cache)

namespace Tally

/-- The tally after an event that happens to the given cache. A new tally is opened when the counters
are set to zero. -/
def enter (tally : Tally) (cache : Cache α β) : Event α β → Tally
  | .use (.get _) => { tally with lookups := tally.lookups + 1 }
  | .use (.insert key _) =>
    { tally with additions := tally.additions + (cache.slot? key).isNone.toNat }
  | .use (.remove key) => { tally with removals := tally.removals + (cache.remove key).1.toNat }
  | .reset => { opening := cache.length }

/-- The tally after a list of events that happen to the given cache in turn. -/
def enterAll : List (Event α β) → Cache α β → Tally → Tally
  | [], _, tally => tally
  | event :: rest, cache, tally => enterAll rest (happen event cache) (tally.enter cache event)

namespace Balances

variable {tally : Tally}

/-- Setting the counters to zero opens a new tally. -/
theorem reset (tally : Tally) (cache : Cache α β) :
    (tally.enter cache .reset).Balances (happen .reset cache) :=
  ⟨rfl, Nat.le_refl 0, rfl⟩

/-- A look-up keeps the balance. -/
theorem get (h : tally.Balances cache) (hstep : cache.InStep) (key : α) :
    (tally.enter cache (.use (.get key))).Balances (happen (.use (.get key)) cache) := by
  have hlookups := h.lookups
  have hexpirations := h.expirations
  obtain ⟨hcounted, hmissed⟩ :
      (cache.get key).2.stats.hits + (cache.get key).2.stats.misses = tally.lookups + 1 ∧
        (cache.get key).2.stats.expirations ≤ (cache.get key).2.stats.misses := by
    rcases cache.stats_get key with hstats | hstats | hstats <;> rw [hstats] <;> dsimp only <;> omega
  have hentries : tally.opening + tally.additions = (cache.get key).2.accounted + tally.removals :=
    h.entries.trans (congrArg (· + tally.removals) (hstep.accounted_get key).symm)
  exact ⟨hcounted, hmissed, hentries⟩

/-- Storing a value keeps the balance. -/
theorem insert (h : tally.Balances cache) (hstep : cache.InStep) (key : α) (value : β) :
    (tally.enter cache (.use (.insert key value))).Balances
      (happen (.use (.insert key value)) cache) := by
  refine h.of_evictions rfl (hstep.stats_insert key value) ?_
  have hbefore := h.entries
  have hadded : (happen (.use (.insert key value)) cache).accounted =
      cache.accounted + (cache.slot? key).isNone.toNat := hstep.accounted_insert key value
  rw [hadded, enter]
  dsimp only
  omega

/-- Removing a key keeps the balance. -/
theorem remove (h : tally.Balances cache) (hstep : cache.InStep) (key : α) :
    (tally.enter cache (.use (.remove key))).Balances (happen (.use (.remove key)) cache) := by
  obtain ⟨-, -, -, hstats⟩ := erase_frame cache key
  refine h.of_evictions rfl ⟨cache.stats.evictions, hstats⟩ ?_
  have hbefore := h.entries
  have hremoved : (happen (.use (.remove key)) cache).accounted +
      (cache.remove key).1.toNat = cache.accounted := hstep.accounted_erase key
  rw [enter]
  dsimp only
  omega

/-- Whatever happens to a cache with its tables in step, the tally still balances. -/
theorem enter (h : tally.Balances cache) (hstep : cache.InStep) (event : Event α β) :
    (tally.enter cache event).Balances (happen event cache) := by
  cases event with
  | reset => exact reset tally cache
  | use operation =>
    cases operation with
    | get key => exact h.get hstep key
    | insert key value => exact h.insert hstep key value
    | remove key => exact h.remove hstep key

end Balances

end Tally

/-- Whatever happens to a cache, its tables stay in step. -/
theorem InStep.happen (h : cache.InStep) (event : Event α β) : (happen event cache).InStep := by
  cases event with
  | reset => exact h.count fun _ => {}
  | use operation =>
    cases operation with
    | get key => exact h.get key
    | insert key value => exact h.insert key value
    | remove key => exact h.erase key

/-- After any events, the tables are in step and the tally balances. -/
theorem Tally.Balances.enterAll {tally : Tally} (h : tally.Balances cache) (hstep : cache.InStep)
    (events : List (Event α β)) :
    (happenAll events cache).InStep ∧
      (Tally.enterAll events cache tally).Balances (happenAll events cache) := by
  -- The tables are carried along in step, for only then does a key stand for one entry.
  induction events generalizing cache tally with
  | nil => exact ⟨hstep, h⟩
  | cons event rest ih => exact ih (h.enter hstep event) (hstep.happen event)

/-- From empty on, with any capacity and idle time and whatever happens, the tables of a cache are
inverse to each other and its books balance. Since the counters were last set to zero, the hits and the
misses are the look-ups, every expiration was a miss, and the insertions of keys that were not cached are
the change in length with the evictions, the expirations and the removals of keys that were. -/
theorem books_balance (capacity : Nat) (idle : Idle) (events : List (Event α β)) :
    let cache := happenAll events (create capacity idle)
    let tally := Tally.enterAll events (create capacity idle) {}
    cache.Inverse ∧
      cache.stats.hits + cache.stats.misses = tally.lookups ∧
      cache.stats.expirations ≤ cache.stats.misses ∧
      (tally.additions : Int) =
        (cache.length - tally.opening) + cache.stats.evictions + cache.stats.expirations +
          tally.removals := by
  intro cache tally
  have hopened : ({} : Tally).Balances (create capacity idle : Cache α β) :=
    ⟨rfl, Nat.le_refl 0, rfl⟩
  obtain ⟨hstep, hbalances⟩ := hopened.enterAll (create_inStep capacity idle) events
  refine ⟨hstep.inverse, hbalances.lookups, hbalances.expirations, ?_⟩
  have hentries : tally.opening + tally.additions = cache.accounted + tally.removals :=
    hbalances.entries
  rw [accounted] at hentries
  omega

/-- Of the two entries that there are at the reset, one is evicted for a new one and one is removed. -/
example :
    Tally.enterAll
        [.use (.insert "a" 1), .use (.insert "b" 2), .use (.get "a"), .reset, .use (.insert "c" 3),
          .use (.get "b"), .use (.insert "c" 4), .use (.remove "a"), .use (.remove "a")]
        (create 2 .endless : Cache String Nat) {} =
      { opening := 2, lookups := 1, additions := 1, removals := 1 } := by decide

end EntityCatalog.Cache
