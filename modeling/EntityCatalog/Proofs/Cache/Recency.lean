import EntityCatalog.Proofs.Cache.Content
import Mathlib.Data.List.Nodup

/-!
# The recency index

The two tables of a cache tell of the same uses: the recency index has one line for each entry, with
the tick of the entry and its key, and both run from the oldest use to the latest. No key has two
entries, no two entries have one tick, and the next tick is later than all of them. So the first line of
the index is always that of the entry used longest ago, and evicting along it drops that entry and no
other. Every operation keeps the tables in step, and tables in step are inverse to each other: a tick
leads to a key exactly when the key leads to the tick.
-/

namespace EntityCatalog.Cache

variable {α β : Type}

/-- The line of the recency index for an entry. -/
def useOf (entry : α × Slot β) : Nat × α := (entry.2.tick, entry.1)

/-- A cache whose tables are in step and hold no more entries than there is room for. -/
structure InStep (cache : Cache α β) : Prop where
  recency : cache.recency = cache.entries.map useOf
  keys : (cache.entries.map Prod.fst).Nodup
  ticks : cache.entries.Pairwise fun a b => a.2.tick < b.2.tick
  past : ∀ entry ∈ cache.entries, entry.2.tick < cache.nextTick
  fits : cache.length ≤ cache.capacity
  roomy : 0 < cache.capacity

/-- The key that was used at a tick. -/
def keyAt? (cache : Cache α β) (tick : Nat) : Option α :=
  (cache.recency.find? fun use => use.1 = tick).map Prod.snd

/-- What a look-up in a list of pairs finds is there. -/
theorem mem_of_find? {γ δ : Type} [DecidableEq γ] {pairs : List (γ × δ)} {key : γ} {value : δ}
    (h : (pairs.find? fun pair => pair.1 = key).map Prod.snd = some value) : (key, value) ∈ pairs := by
  obtain ⟨pair, hfind, rfl⟩ := Option.map_eq_some_iff.mp h
  have hkey : pair.1 = key := by simpa using List.find?_some hfind
  rw [← hkey]
  exact List.mem_of_find?_eq_some hfind

/-- Where no first component stands twice, all that is there is found. -/
theorem find?_eq_some_iff_mem {γ δ : Type} [DecidableEq γ] {pairs : List (γ × δ)}
    (h : (pairs.map Prod.fst).Nodup) {key : γ} {value : δ} :
    (pairs.find? fun pair => pair.1 = key).map Prod.snd = some value ↔ (key, value) ∈ pairs := by
  refine ⟨mem_of_find?, fun hmem => ?_⟩
  have hsome : ((pairs.find? fun pair => pair.1 = key).map Prod.snd).isSome := by
    rw [Option.isSome_map, List.find?_isSome]
    exact ⟨(key, value), hmem, decide_eq_true rfl⟩
  obtain ⟨found, hfound⟩ := Option.isSome_iff_exists.mp hsome
  have hsame := List.inj_on_of_nodup_map h (mem_of_find? hfound) hmem rfl
  rw [hfound, (Prod.mk.inj hsame).2]

/-- A cache without the entry that was used longest ago, which is counted as evicted. -/
def dropOldest (cache : Cache α β) : Cache α β :=
  { cache with
    entries := cache.entries.tail
    recency := cache.recency.tail
    stats := { cache.stats with evictions := cache.stats.evictions + 1 } }

namespace InStep

variable {cache cache' : Cache α β}

/-- Tables that lose entries together stay in step. -/
theorem of_sublist (h : cache.InStep) (hentries : cache'.entries.Sublist cache.entries)
    (hrecency : cache'.recency = cache'.entries.map useOf) (hnext : cache'.nextTick = cache.nextTick)
    (hcapacity : cache'.capacity = cache.capacity) : cache'.InStep where
  recency := hrecency
  keys := h.keys.sublist (hentries.map Prod.fst)
  ticks := h.ticks.sublist hentries
  past := fun entry hentry => hnext ▸ h.past entry (hentries.subset hentry)
  fits := hcapacity ▸ Nat.le_trans hentries.length_le h.fits
  roomy := hcapacity ▸ h.roomy

/-- Counting leaves the tables in step. -/
theorem count (h : cache.InStep) (change : Stats → Stats) : (cache.count change).InStep :=
  h.of_sublist (List.Sublist.refl _) h.recency rfl rfl

/-- Dropping the oldest entry leaves the tables in step. -/
theorem dropOldest (h : cache.InStep) : cache.dropOldest.InStep := by
  refine h.of_sublist (List.tail_sublist _) ?_ rfl rfl
  rw [Cache.dropOldest, h.recency, List.map_tail]

/-- The lines of the recency index are in the order of their ticks. -/
theorem ordered (h : cache.InStep) : (cache.recency.map Prod.fst).Pairwise (· < ·) := by
  rw [h.recency, List.map_map, List.pairwise_map]
  exact h.ticks

/-- The recency index gives the key of a tick exactly if it has a line with both. -/
theorem keyAt?_eq_some_iff (h : cache.InStep) {tick : Nat} {key : α} :
    cache.keyAt? tick = some key ↔ (tick, key) ∈ cache.recency :=
  find?_eq_some_iff_mem (h.ordered.imp Nat.ne_of_lt)

/-- An entry is known by its tick as well as by its key. -/
theorem tick_eq_iff (h : cache.InStep) {entry entry' : α × Slot β} (hentry : entry ∈ cache.entries)
    (hentry' : entry' ∈ cache.entries) : entry.2.tick = entry'.2.tick ↔ entry.1 = entry'.1 := by
  have hticks : (cache.entries.map fun entry => entry.2.tick).Nodup :=
    List.pairwise_map.mpr (h.ticks.imp Nat.ne_of_lt)
  constructor
  · exact fun heq => congrArg Prod.fst (List.inj_on_of_nodup_map hticks hentry hentry' heq)
  · intro heq
    rw [List.inj_on_of_nodup_map h.keys hentry hentry' heq]

end InStep

/-- The tables of a new cache are in step. -/
theorem create_inStep (capacity : Nat) (idle : Idle) : (create capacity idle : Cache α β).InStep where
  recency := rfl
  keys := List.nodup_nil
  ticks := List.Pairwise.nil
  past := fun _ hentry => absurd hentry List.not_mem_nil
  fits := Nat.zero_le _
  roomy := Nat.lt_of_lt_of_le Nat.one_pos (Nat.le_max_right capacity 1)

variable [DecidableEq α]

/-- A slot that is found belongs to an entry of the key. -/
theorem mem_of_slot? {cache : Cache α β} {key : α} {slot : Slot β} (h : cache.slot? key = some slot) :
    (key, slot) ∈ cache.entries :=
  mem_of_find? h

/-- A key has no slot exactly if no entry has it. -/
theorem slot?_eq_none_iff (cache : Cache α β) (key : α) :
    cache.slot? key = none ↔ ∀ entry ∈ cache.entries, entry.1 ≠ key := by
  simp [slot?]

/-- Erasing a key leaves the entries of all others, in their order. -/
theorem entries_erase (cache : Cache α β) (key : α) :
    (cache.erase key).entries = cache.entries.filter fun entry => entry.1 ≠ key := by
  rw [erase]
  split
  · rfl
  · rename_i hnone
    refine (List.filter_eq_self.mpr fun entry hentry => ?_).symm
    exact decide_eq_true ((slot?_eq_none_iff cache key).mp hnone entry hentry)

/-- A key that was dropped has no slot. -/
theorem slot?_erase_self (cache : Cache α β) (key : α) : (cache.erase key).slot? key = none := by
  rw [slot?, entries_erase, find?_filter_self, Option.map_none]

/-- Erasing a key changes nothing but the two tables. -/
theorem erase_frame (cache : Cache α β) (key : α) :
    (cache.erase key).capacity = cache.capacity ∧ (cache.erase key).idle = cache.idle ∧
      (cache.erase key).nextTick = cache.nextTick ∧ (cache.erase key).stats = cache.stats := by
  rw [erase]
  split <;> exact ⟨rfl, rfl, rfl, rfl⟩

/-! A look-up misses, drops an expired entry, or makes its entry the latest one. -/

/-- Looking up a key without a slot is a miss. -/
theorem get_of_none {cache : Cache α β} {key : α} (h : cache.slot? key = none) :
    cache.get key = (none, cache.count fun stats => { stats with misses := stats.misses + 1 }) := by
  rw [get, h]

/-- With no idle time a look-up drops the entry that it finds, as expired. -/
theorem get_of_zero {cache : Cache α β} {key : α} {slot : Slot β} (h : cache.slot? key = some slot)
    (hidle : cache.idle = .zero) :
    cache.get key = (none, (cache.erase key).count fun stats =>
      { stats with expirations := stats.expirations + 1, misses := stats.misses + 1 }) := by
  rw [get, h, hidle]

/-- With endless idle time a look-up is a hit, and moves the entry that it finds to the end. -/
theorem get_of_endless {cache : Cache α β} {key : α} {slot : Slot β}
    (h : cache.slot? key = some slot) (hidle : cache.idle = .endless) :
    cache.get key = (some slot.value, ((cache.erase key).place key slot.value).count fun stats =>
      { stats with hits := stats.hits + 1 }) := by
  rw [get, h, hidle]

/-- With room for one more entry, nothing is evicted. -/
theorem evict_of_lt {cache : Cache α β} (h : cache.length < cache.capacity) (oldest : List (Nat × α)) :
    evict oldest cache = cache := by
  cases oldest with
  | nil => rfl
  | cons use rest => rw [evict, if_pos h]

namespace InStep

variable {cache : Cache α β}

/-- The line of a tick is the line of its entry, so a key leaves both tables at once. -/
theorem erase (h : cache.InStep) (key : α) : (cache.erase key).InStep := by
  obtain ⟨hcapacity, -, hnext, -⟩ := erase_frame cache key
  have hentries : (cache.erase key).entries.Sublist cache.entries := by
    rw [entries_erase]
    exact List.filter_sublist
  refine h.of_sublist hentries ?_ hnext hcapacity
  cases hslot : cache.slot? key with
  | none =>
    rw [Cache.erase, hslot]
    exact h.recency
  | some slot =>
    rw [Cache.erase, hslot]
    dsimp only
    rw [h.recency, List.filter_map]
    congr 1
    refine List.filter_congr fun entry hentry => ?_
    have hsame := h.tick_eq_iff hentry (mem_of_slot? hslot)
    exact decide_eq_decide.mpr (not_congr hsame)

/-- A key that has an entry leaves room when it is erased. -/
theorem erase_room (h : cache.InStep) {key : α} {slot : Slot β} (hslot : cache.slot? key = some slot) :
    (cache.erase key).length < (cache.erase key).capacity := by
  have hlt : (cache.erase key).length < cache.length := by
    rw [length, length, entries_erase]
    exact List.length_filter_lt_length_iff_exists.mpr ⟨(key, slot), mem_of_slot? hslot, by simp⟩
  rw [(erase_frame cache key).1]
  exact Nat.lt_of_lt_of_le hlt h.fits

/-- A use of a key that has no entry comes last in both tables. -/
theorem place (h : cache.InStep) {key : α} (hkey : cache.slot? key = none)
    (hroom : cache.length < cache.capacity) (value : β) : (cache.place key value).InStep where
  recency := by rw [Cache.place, h.recency, List.map_append]; rfl
  keys := by
    rw [slot?_eq_none_iff] at hkey
    rw [Cache.place, List.map_append, List.nodup_append]
    refine ⟨h.keys, List.nodup_singleton key, fun other hother last hlast => ?_⟩
    obtain ⟨entry, hentry, rfl⟩ := List.mem_map.mp hother
    rw [List.mem_singleton.mp hlast]
    exact hkey entry hentry
  ticks := by
    refine List.pairwise_append.mpr ⟨h.ticks, List.pairwise_singleton _ _, ?_⟩
    intro entry hentry last hlast
    rw [List.mem_singleton.mp hlast]
    exact h.past entry hentry
  past := by
    intro entry hentry
    rcases List.mem_append.mp hentry with hold | hlast
    · exact Nat.lt_succ_of_lt (h.past entry hold)
    · rw [List.mem_singleton.mp hlast]
      exact Nat.lt_succ_self _
  fits := by
    rw [length, Cache.place, List.length_append]
    exact hroom
  roomy := h.roomy

/-- Evicting along the recency index drops the entry that was used longest ago if the cache is full, and
nothing otherwise. -/
theorem evict_eq (h : cache.InStep) :
    evict cache.recency cache =
      if cache.length < cache.capacity then cache else cache.dropOldest := by
  split
  · exact evict_of_lt ‹_› _
  · rename_i hfull
    have hlength : cache.length = cache.capacity :=
      Nat.le_antisymm h.fits (Nat.le_of_not_lt hfull)
    cases hentries : cache.entries with
    | nil =>
      have hpos := h.roomy
      rw [← hlength, length, hentries] at hpos
      exact absurd hpos (Nat.lt_irrefl 0)
    | cons oldest rest =>
      have hnodup := h.keys
      rw [hentries, List.map_cons, List.nodup_cons] at hnodup
      -- The first line of the index names the first entry, and no other entry has its key.
      have hrest : (cache.entries.filter fun entry => entry.1 ≠ (useOf oldest).2) = rest := by
        rw [hentries, List.filter_cons_of_neg (by simp [useOf]), List.filter_eq_self]
        refine fun entry hentry => decide_eq_true fun heq => hnodup.1 ?_
        exact List.mem_map.mpr ⟨entry, hentry, heq⟩
      have hrecency : cache.recency = useOf oldest :: rest.map useOf := by
        rw [h.recency, hentries, List.map_cons]
      rw [hrecency, evict.eq_2, if_neg hfull, Cache.dropOldest, hrest, hrecency, hentries]
      apply evict_of_lt
      rw [length, hentries] at hlength
      exact Nat.lt_of_lt_of_eq (Nat.lt_succ_self rest.length) hlength

/-- Evicting makes room for one more entry and keeps the tables in step. -/
theorem evict (h : cache.InStep) :
    (evict cache.recency cache).InStep ∧
      (Cache.evict cache.recency cache).length < (Cache.evict cache.recency cache).capacity := by
  rw [h.evict_eq]
  split
  · exact ⟨h, ‹_›⟩
  · refine ⟨h.dropOldest, ?_⟩
    have hpos := h.roomy
    have hfits := h.fits
    rw [length] at hfits ⊢
    rw [Cache.dropOldest, List.length_tail]
    dsimp only
    omega

/-- A look-up leaves the tables in step. -/
theorem get (h : cache.InStep) (key : α) : (cache.get key).2.InStep := by
  cases hslot : cache.slot? key with
  | none =>
    rw [get_of_none hslot]
    dsimp only
    exact h.count _
  | some slot =>
    cases hidle : cache.idle with
    | zero =>
      rw [get_of_zero hslot hidle]
      dsimp only
      exact (h.erase key).count _
    | endless =>
      rw [get_of_endless hslot hidle]
      have hplaced := (h.erase key).place (slot?_erase_self cache key) (h.erase_room hslot) slot.value
      dsimp only
      exact hplaced.count _

/-- Storing a value leaves the tables in step. -/
theorem insert (h : cache.InStep) (key : α) (value : β) : (cache.insert key value).InStep := by
  obtain ⟨hmade, hroom⟩ := (h.erase key).evict
  have hkey := cached?_evict_erase (cache.erase key).recency cache key
  rw [cached?, Option.map_eq_none_iff] at hkey
  exact hmade.place hkey hroom value

/-- A key has the slot of the entry with that key. -/
theorem slot?_eq_some_iff (h : cache.InStep) {key : α} {slot : Slot β} :
    cache.slot? key = some slot ↔ (key, slot) ∈ cache.entries :=
  find?_eq_some_iff_mem h.keys

end InStep

/-- A cache whose tables are maps that are inverse to each other, the recency index in the order of its
ticks, with every tick before the next one. -/
structure Inverse (cache : Cache α β) : Prop where
  keys : (cache.entries.map Prod.fst).Nodup
  ticks : (cache.recency.map Prod.fst).Pairwise (· < ·)
  inverse : ∀ tick key,
    cache.keyAt? tick = some key ↔ (cache.slot? key).map Slot.tick = some tick
  past : ∀ use ∈ cache.recency, use.1 < cache.nextTick

/-- Tables in step are inverse to each other. -/
theorem InStep.inverse {cache : Cache α β} (h : cache.InStep) : cache.Inverse where
  keys := h.keys
  ticks := h.ordered
  inverse := by
    intro tick key
    rw [h.keyAt?_eq_some_iff, h.recency, List.mem_map, Option.map_eq_some_iff]
    constructor
    · rintro ⟨⟨key', slot⟩, hentry, huse⟩
      obtain ⟨rfl, rfl⟩ := Prod.mk.inj huse
      exact ⟨slot, h.slot?_eq_some_iff.mpr hentry, rfl⟩
    · rintro ⟨slot, hslot, rfl⟩
      exact ⟨(key, slot), h.slot?_eq_some_iff.mp hslot, rfl⟩
  past := by
    rw [h.recency]
    exact List.forall_mem_map.mpr h.past

end EntityCatalog.Cache
