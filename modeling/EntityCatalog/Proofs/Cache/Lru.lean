import EntityCatalog.Proofs.Cache.Recency

/-!
# A cache is a list in the order of use

The reference is a list of pairs with distinct keys, from the least recently used one to the most
recently used one. Seen from outside, a cache is that list: whatever is looked up, inserted and removed,
both give the same answers, have the same length and have dropped as many pairs to make room.
-/

namespace EntityCatalog

/-- Pairs with distinct keys, the least recently used one first, and the pairs that were dropped to make
room. -/
structure Lru (α β : Type) where
  room : Nat
  idle : Idle
  pairs : List (α × β)
  dropped : List (α × β)
  distinct : (pairs.map Prod.fst).Nodup

namespace Lru

variable {α β : Type}

/-- No pairs, with room for one at least. -/
def create (capacity : Nat) (idle : Idle) : Lru α β :=
  ⟨max capacity 1, idle, [], [], List.nodup_nil⟩

/-- Drop the pair that was used longest ago. -/
def dropOldest (lru : Lru α β) : Lru α β :=
  { lru with
    pairs := lru.pairs.tail
    dropped := lru.dropped ++ lru.pairs.take 1
    distinct := lru.distinct.sublist ((List.tail_sublist _).map Prod.fst) }

/-- Drop the pair that was used longest ago if there is no room for one more. -/
def makeRoom (lru : Lru α β) : Lru α β :=
  if lru.pairs.length < lru.room then lru else lru.dropOldest

/-- Making room does not change for how many pairs there is room. -/
theorem room_makeRoom (lru : Lru α β) : lru.makeRoom.room = lru.room := by
  rw [makeRoom]
  split <;> rfl

variable [DecidableEq α]

/-- The value in the pair of a key. -/
def find? (lru : Lru α β) (key : α) : Option β :=
  (lru.pairs.find? fun pair => pair.1 = key).map Prod.snd

/-- Delete the pair of a key. -/
def delete (lru : Lru α β) (key : α) : Lru α β :=
  { lru with
    pairs := lru.pairs.filter fun pair => pair.1 ≠ key
    distinct := lru.distinct.sublist (List.filter_sublist.map Prod.fst) }

/-- Deleting a key keeps the pairs of all other keys in their order. -/
theorem pairs_delete (lru : Lru α β) (key : α) :
    (lru.delete key).pairs = lru.pairs.filter fun pair => pair.1 ≠ key := rfl

/-- A key is not found exactly if no pair has it. -/
theorem find?_eq_none_iff (lru : Lru α β) (key : α) :
    lru.find? key = none ↔ key ∉ lru.pairs.map Prod.fst := by
  rw [find?, Option.map_eq_none_iff, List.find?_eq_none, List.mem_map]
  constructor
  · rintro h ⟨pair, hpair, rfl⟩
    exact h pair hpair (decide_eq_true rfl)
  · exact fun h pair hpair hkey => h ⟨pair, hpair, of_decide_eq_true hkey⟩

/-- A key that was deleted is not found. -/
theorem find?_delete (lru : Lru α β) (key : α) : (lru.delete key).find? key = none := by
  simp [find?_eq_none_iff, delete]

/-- Making room brings no key back. -/
theorem find?_makeRoom {lru : Lru α β} {key : α} (h : lru.find? key = none) :
    lru.makeRoom.find? key = none := by
  rw [makeRoom]
  split
  · exact h
  · rw [find?_eq_none_iff] at h ⊢
    exact fun hmem => h (((List.tail_sublist lru.pairs).map Prod.fst).subset hmem)

/-- Add the pair of a key that has none at the most recent end. -/
def append (lru : Lru α β) (key : α) (value : β) (h : lru.find? key = none) : Lru α β :=
  { lru with
    pairs := lru.pairs ++ [(key, value)]
    distinct := by
      rw [List.map_append, List.nodup_append_comm]
      exact List.nodup_cons.mpr ⟨(find?_eq_none_iff lru key).mp h, lru.distinct⟩ }

/-- Look a key up: its pair moves to the most recent end. With idle time zero the pair is deleted and
nothing is found. -/
def get (lru : Lru α β) (key : α) : Option β × Lru α β :=
  match lru.find? key, lru.idle with
  | none, _ => (none, lru)
  | some _, .zero => (none, lru.delete key)
  | some value, .endless => (some value, (lru.delete key).append key value (lru.find?_delete key))

/-- Looking up a key without a pair changes nothing. -/
theorem get_of_none {lru : Lru α β} {key : α} (h : lru.find? key = none) :
    lru.get key = (none, lru) := by
  rw [get, h]

/-- With no idle time a look-up deletes the pair that it finds. -/
theorem get_of_zero {lru : Lru α β} {key : α} {value : β} (h : lru.find? key = some value)
    (hidle : lru.idle = .zero) : lru.get key = (none, lru.delete key) := by
  rw [get, h, hidle]

/-- With endless idle time a look-up makes the pair that it finds the last one. -/
theorem get_of_endless {lru : Lru α β} {key : α} {value : β} (h : lru.find? key = some value)
    (hidle : lru.idle = .endless) :
    lru.get key = (some value, (lru.delete key).append key value (lru.find?_delete key)) := by
  rw [get, h, hidle]

/-- Store a value for a key at the most recent end, in place of its old pair. -/
def insert (lru : Lru α β) (key : α) (value : β) : Lru α β :=
  (lru.delete key).makeRoom.append key value (find?_makeRoom (lru.find?_delete key))

/-- Delete the pair of a key: whether it was there, and the list without it. -/
def remove (lru : Lru α β) (key : α) : Bool × Lru α β := ((lru.find? key).isSome, lru.delete key)

end Lru

namespace Cache

/-- A use of a cache. -/
inductive Operation (α β : Type) where
  | get (key : α)
  | insert (key : α) (value : β)
  | remove (key : α)
deriving DecidableEq, Repr

/-- What a use of a cache is answered with. -/
inductive Reply (β : Type) where
  | found (value : Option β)
  | stored
  | removed (was : Bool)
deriving DecidableEq, Repr

/-- What is seen of a cache after a use. -/
structure Sight (β : Type) where
  reply : Reply β
  length : Nat
  isEmpty : Bool
  evictions : Nat
deriving DecidableEq, Repr

variable {α β : Type} [DecidableEq α]

/-- Use a cache. -/
def perform : Operation α β → Cache α β → Reply β × Cache α β
  | .get key, cache => (cache.get key).map .found id
  | .insert key value, cache => (.stored, cache.insert key value)
  | .remove key, cache => (cache.remove key).map .removed id

/-- What is seen of a cache that is used, after each use in turn. -/
def sights : List (Operation α β) → Cache α β → List (Sight β)
  | [], _ => []
  | operation :: rest, cache =>
    let after := (cache.perform operation).2
    ⟨(cache.perform operation).1, after.length, after.isEmpty, after.stats.evictions⟩ ::
      sights rest after

end Cache

namespace Lru

variable {α β : Type} [DecidableEq α]

/-- Use a list as a cache. -/
def perform : Cache.Operation α β → Lru α β → Cache.Reply β × Lru α β
  | .get key, lru => (lru.get key).map .found id
  | .insert key value, lru => (.stored, lru.insert key value)
  | .remove key, lru => (lru.remove key).map .removed id

/-- No operation changes for how many pairs there is room. -/
theorem room_perform (lru : Lru α β) (operation : Cache.Operation α β) :
    (lru.perform operation).2.room = lru.room := by
  cases operation with
  | get key =>
    rw [perform, get]
    split <;> rfl
  | insert key value => exact (lru.delete key).room_makeRoom
  | remove key => rfl

/-- What is seen of a list that is used as a cache. -/
def sights : List (Cache.Operation α β) → Lru α β → List (Cache.Sight β)
  | [], _ => []
  | operation :: rest, lru =>
    let after := (lru.perform operation).2
    ⟨(lru.perform operation).1, after.pairs.length, after.pairs.isEmpty, after.dropped.length⟩ ::
      sights rest after

end Lru

namespace Cache

variable {α β : Type}

/-- The pair of an entry. -/
def pairOf (entry : α × Slot β) : α × β := (entry.1, entry.2.value)

/-- A cache with its tables in step, whose entries are the pairs of a list in the order of use. -/
structure Refines (cache : Cache α β) (lru : Lru α β) : Prop where
  inStep : cache.InStep
  room : cache.capacity = lru.room
  idle : cache.idle = lru.idle
  pairs : cache.entries.map pairOf = lru.pairs
  evictions : cache.stats.evictions = lru.dropped.length

namespace Refines

variable {cache : Cache α β} {lru : Lru α β}

/-- A cache has as many entries as there are pairs. -/
theorem length_eq (h : cache.Refines lru) : cache.length = lru.pairs.length := by
  rw [← h.pairs, List.length_map, length]

/-- A cache is empty exactly when there are no pairs. -/
theorem isEmpty_eq (h : cache.Refines lru) : cache.isEmpty = lru.pairs.isEmpty := by
  rw [isEmpty, h.length_eq]
  cases lru.pairs <;> rfl

/-- Counting anything but evictions leaves the pairs as they are. -/
theorem count (h : cache.Refines lru) {change : Stats → Stats}
    (hchange : (change cache.stats).evictions = cache.stats.evictions) :
    (cache.count change).Refines lru :=
  ⟨h.inStep.count change, h.room, h.idle, h.pairs, hchange.trans h.evictions⟩

/-- A full cache drops the entry whose pair the list drops. -/
theorem dropOldest (h : cache.Refines lru) (hpairs : 0 < lru.pairs.length) :
    cache.dropOldest.Refines lru.dropOldest where
  inStep := h.inStep.dropOldest
  room := h.room
  idle := h.idle
  pairs := by rw [Cache.dropOldest, Lru.dropOldest, List.map_tail, h.pairs]
  evictions := by
    rw [Cache.dropOldest, Lru.dropOldest, List.length_append, List.length_take, h.evictions,
      Nat.min_eq_left hpairs]

/-- A new cache has no pairs, and the same room. -/
theorem create (capacity : Nat) (idle : Idle) :
    (create capacity idle : Cache α β).Refines (.create capacity idle) :=
  ⟨create_inStep capacity idle, rfl, rfl, rfl, rfl⟩

variable [DecidableEq α]

/-- The value cached under a key is the one in its pair. -/
theorem cached?_eq (h : cache.Refines lru) (key : α) : cache.cached? key = lru.find? key := by
  rw [cached?, slot?, Lru.find?, ← h.pairs, List.find?_map, Option.map_map, Option.map_map]
  rfl

/-- Dropping the entry of a key deletes its pair. -/
theorem erase (h : cache.Refines lru) (key : α) : (cache.erase key).Refines (lru.delete key) := by
  obtain ⟨hcapacity, hidle, -, hstats⟩ := erase_frame cache key
  refine ⟨h.inStep.erase key, hcapacity.trans h.room, hidle.trans h.idle, ?_, ?_⟩
  · rw [entries_erase, Lru.pairs_delete, ← h.pairs, List.filter_map]
    rfl
  · rw [hstats]
    exact h.evictions

/-- An entry placed where there is room is a pair at the end. -/
theorem place (h : cache.Refines lru) {key : α} (hkey : cache.slot? key = none)
    (hroom : cache.length < cache.capacity) (value : β) (hfree : lru.find? key = none) :
    (cache.place key value).Refines (lru.append key value hfree) where
  inStep := h.inStep.place hkey hroom value
  room := h.room
  idle := h.idle
  pairs := by
    rw [Cache.place, Lru.append, List.map_append, h.pairs]
    rfl
  evictions := h.evictions

/-- Evicting along the recency index makes room among the pairs. -/
theorem evict (h : cache.Refines lru) : (evict cache.recency cache).Refines lru.makeRoom := by
  rw [h.inStep.evict_eq, Lru.makeRoom, h.length_eq, h.room]
  split
  · exact h
  · rename_i hfull
    have hpos := h.inStep.roomy
    rw [h.room] at hpos
    exact h.dropOldest (Nat.lt_of_lt_of_le hpos (Nat.le_of_not_lt hfull))

/-- Both answer a look-up alike. -/
theorem get (h : cache.Refines lru) (key : α) :
    (cache.get key).1 = (lru.get key).1 ∧ (cache.get key).2.Refines (lru.get key).2 := by
  have hfind := h.cached?_eq key
  rw [cached?] at hfind
  cases hslot : cache.slot? key with
  | none =>
    rw [hslot, Option.map_none] at hfind
    rw [get_of_none hslot, Lru.get_of_none hfind.symm]
    dsimp only
    exact ⟨rfl, h.count rfl⟩
  | some slot =>
    rw [hslot, Option.map_some] at hfind
    cases hidle : cache.idle with
    | zero =>
      rw [get_of_zero hslot hidle, Lru.get_of_zero hfind.symm (h.idle.symm.trans hidle)]
      dsimp only
      exact ⟨rfl, (h.erase key).count rfl⟩
    | endless =>
      rw [get_of_endless hslot hidle, Lru.get_of_endless hfind.symm (h.idle.symm.trans hidle)]
      have hplaced := (h.erase key).place (slot?_erase_self cache key) (h.inStep.erase_room hslot)
        slot.value (lru.find?_delete key)
      dsimp only
      exact ⟨rfl, hplaced.count rfl⟩

/-- Both store a value alike. -/
theorem insert (h : cache.Refines lru) (key : α) (value : β) :
    (cache.insert key value).Refines (lru.insert key value) := by
  have hcleared := h.erase key
  have hmade := hcleared.evict
  have hfree := Lru.find?_makeRoom (lru.find?_delete key)
  have hkey : (Cache.evict (cache.erase key).recency (cache.erase key)).slot? key = none := by
    rw [← hmade.cached?_eq, cached?, Option.map_eq_none_iff] at hfree
    exact hfree
  exact hmade.place hkey hcleared.inStep.evict.2 value hfree

/-- Both drop a key alike. -/
theorem remove (h : cache.Refines lru) (key : α) :
    (cache.remove key).1 = (lru.remove key).1 ∧ (cache.remove key).2.Refines (lru.remove key).2 := by
  refine ⟨?_, h.erase key⟩
  have hfind := h.cached?_eq key
  rw [Cache.remove, Lru.remove, ← hfind, cached?, Option.isSome_map]

/-- Whatever the use, both answer alike and the one still refines the other. -/
theorem perform (h : cache.Refines lru) (operation : Operation α β) :
    (cache.perform operation).1 = (lru.perform operation).1 ∧
      (cache.perform operation).2.Refines (lru.perform operation).2 := by
  cases operation with
  | get key => exact ⟨congrArg Reply.found (h.get key).1, (h.get key).2⟩
  | insert key value => exact ⟨rfl, h.insert key value⟩
  | remove key => exact ⟨congrArg Reply.removed (h.remove key).1, (h.remove key).2⟩

/-- After any uses, both have been seen alike and the one refines the other. -/
theorem sights_eq (h : cache.Refines lru) (operations : List (Operation α β)) :
    sights operations cache = lru.sights operations := by
  induction operations generalizing cache lru with
  | nil => rfl
  | cons operation rest ih =>
    obtain ⟨hreply, hafter⟩ := h.perform operation
    rw [sights, Lru.sights, ih hafter, hreply, hafter.length_eq, hafter.isEmpty_eq, hafter.evictions]

end Refines

variable [DecidableEq α]

/-- After any uses, a cache that refines a list is within its capacity. -/
theorem Refines.length_le {cache : Cache α β} {lru : Lru α β} (h : cache.Refines lru)
    (operations : List (Operation α β)) :
    ∀ sight ∈ sights operations cache, sight.length ≤ lru.room := by
  induction operations generalizing cache lru with
  | nil => exact fun sight hsight => absurd hsight List.not_mem_nil
  | cons operation rest ih =>
    obtain ⟨-, hafter⟩ := h.perform operation
    have hroom := lru.room_perform operation
    refine List.forall_mem_cons.mpr ⟨?_, fun sight hsight => hroom ▸ ih hafter sight hsight⟩
    rw [← hroom, ← hafter.room]
    exact hafter.inStep.fits

/-- From empty on, with any capacity and idle time, a cache gives the answers of a list in the order of
use, has its length, and has evicted as many entries as the list has dropped pairs. Its length never
exceeds its capacity, which is one at least. -/
theorem sights_eq_lru (capacity : Nat) (idle : Idle) (operations : List (Operation α β)) :
    sights operations (create capacity idle) = (Lru.create capacity idle).sights operations ∧
      ∀ sight ∈ sights operations (create capacity idle : Cache α β),
        sight.length ≤ max capacity 1 :=
  ⟨(Refines.create capacity idle).sights_eq operations,
    (Refines.create capacity idle).length_le operations⟩

/-- The key that was looked up stays, and the other one makes room. -/
example :
    (sights [.insert "a" 1, .insert "b" 2, .get "a", .insert "c" 3, .get "b"]
        (create 2 .endless : Cache String Nat)).map Sight.reply =
      [.stored, .stored, .found (some 1), .stored, .found none] := by decide

end Cache

end EntityCatalog
