import EntityCatalog.Cache.Basic

/-!
# What a cache holds

A cache is read through the value cached under each key. Whatever an operation does to the order
of use, it adds no value but the one inserted: look-ups, removals and evictions only lose some.
-/

namespace EntityCatalog.Cache

variable {α β : Type} [DecidableEq α]

/-- The value cached under a key, whether or not its entry has expired. -/
def cached? (cache : Cache α β) (key : α) : Option β := (cache.slot? key).map Slot.value

/-- Every value that the first cache holds, the second holds too. -/
def Within (cache other : Cache α β) : Prop :=
  ∀ key value, cache.cached? key = some value → other.cached? key = some value

/-- A cache holds every value that it holds itself. -/
theorem Within.refl (cache : Cache α β) : cache.Within cache := fun _ _ h => h

/-- What is held by a cache within a second is held by any that the second lies within. -/
theorem Within.trans {a b c : Cache α β} (hab : a.Within b) (hbc : b.Within c) : a.Within c :=
  fun key value h => hbc key value (hab key value h)

/-- Nothing is cached to begin with. -/
@[simp] theorem cached?_create (capacity : Nat) (idle : Idle) (key : α) :
    (create capacity idle : Cache α β).cached? key = none := rfl

/-- Counting changes nothing that is cached. -/
@[simp] theorem cached?_count (cache : Cache α β) (change : Stats → Stats) (key : α) :
    (cache.count change).cached? key = cache.cached? key := rfl

/-- Entries of other keys are found as before among those that are left. -/
theorem find?_filter_of_ne {key key' : α} (h : key ≠ key') (entries : List (α × Slot β)) :
    (entries.filter fun entry => entry.1 ≠ key).find? (fun entry => entry.1 = key') =
      entries.find? (fun entry => entry.1 = key') := by
  induction entries with
  | nil => rfl
  | cons entry rest ih =>
    by_cases hkey : entry.1 = key
    · have hother : ¬ entry.1 = key' := fun hsame => h (hkey.symm.trans hsame)
      simpa [hkey, hother, h] using ih
    · by_cases hother : entry.1 = key' <;> simp_all

/-- No entry of a key is found once all of them are left out. -/
theorem find?_filter_self (key : α) (entries : List (α × Slot β)) :
    (entries.filter fun entry => entry.1 ≠ key).find? (fun entry => entry.1 = key) = none := by
  rw [List.find?_eq_none]
  intro entry hentry
  simpa using (List.mem_filter.mp hentry).2

/-- Removing a key loses its value alone. -/
theorem cached?_erase (cache : Cache α β) (key key' : α) :
    (cache.erase key).cached? key' = if key = key' then none else cache.cached? key' := by
  cases hslot : cache.slot? key with
  | none =>
    have hsame : cache.erase key = cache := by rw [erase, hslot]
    rw [hsame]
    split
    · rename_i heq
      rw [cached?, ← heq, hslot, Option.map_none]
    · rfl
  | some slot =>
    rw [erase, hslot]
    by_cases heq : key = key'
    · subst heq
      simp only [cached?, slot?, find?_filter_self, if_true, Option.map_none]
    · simp only [cached?, slot?, find?_filter_of_ne heq, heq, if_false]

/-- A cache that lost an entry holds nothing that it did not hold before. -/
theorem erase_within (cache : Cache α β) (key : α) : (cache.erase key).Within cache := by
  intro key' value h
  rw [cached?_erase] at h
  split at h
  · exact absurd h (by simp)
  · exact h

/-- Adding an entry for a key that has none adds its value alone. -/
theorem cached?_place {cache : Cache α β} {key : α} (value : β) (key' : α)
    (h : cache.cached? key = none) :
    (cache.place key value).cached? key' = if key = key' then some value else cache.cached? key' := by
  have hnone : cache.entries.find? (fun entry => entry.1 = key) = none := by
    simpa [cached?, slot?] using h
  simp only [cached?, slot?, place, List.find?_append]
  by_cases heq : key = key'
  · subst heq
    simp [hnone]
  · simp [heq]

/-- Evictions only lose values. -/
theorem evict_within (oldest : List (Nat × α)) (cache : Cache α β) :
    (evict oldest cache).Within cache := by
  induction oldest generalizing cache with
  | nil => exact Within.refl cache
  | cons use rest ih =>
    simp only [evict]
    split
    · exact Within.refl cache
    · refine (ih _).trans fun key value h => ?_
      by_cases heq : use.2 = key
      · subst heq
        simp only [cached?, slot?, find?_filter_self, Option.map_none] at h
        exact absurd h (by simp)
      · simpa only [cached?, slot?, find?_filter_of_ne heq] using h

/-- A key that was erased has no value after evictions either. -/
theorem cached?_evict_erase (oldest : List (Nat × α)) (cache : Cache α β) (key : α) :
    (evict oldest (cache.erase key)).cached? key = none := by
  cases hleft : (evict oldest (cache.erase key)).cached? key with
  | none => rfl
  | some left =>
    have hcleared := evict_within oldest (cache.erase key) key left hleft
    rw [cached?_erase, if_pos rfl] at hcleared
    exact absurd hcleared (by simp)

/-- After an insertion the key has its new value, and other keys at most their old ones. -/
theorem cached?_insert (cache : Cache α β) (key : α) (value : β) {key' : α} {value' : β}
    (h : (cache.insert key value).cached? key' = some value') :
    key = key' ∧ value = value' ∨ key ≠ key' ∧ cache.cached? key' = some value' := by
  have hwithin := evict_within (cache.erase key).recency (cache.erase key)
  rw [insert, cached?_place value key' (cached?_evict_erase _ cache key)] at h
  split at h
  · rename_i heq
    exact Or.inl ⟨heq, Option.some.inj h⟩
  · rename_i hne
    exact Or.inr ⟨hne, erase_within cache key key' value' (hwithin key' value' h)⟩

/-- A look-up answers with nothing but the cached value. -/
theorem cached?_of_get {cache : Cache α β} {key : α} {value : β}
    (h : (cache.get key).1 = some value) : cache.cached? key = some value := by
  cases hslot : cache.slot? key with
  | none => simp [get, hslot] at h
  | some slot =>
    cases hidle : cache.idle with
    | zero => simp [get, hslot, hidle] at h
    | endless => simpa [get, hslot, hidle, cached?] using h

/-- A look-up adds no value. -/
theorem get_within (cache : Cache α β) (key : α) : (cache.get key).2.Within cache := by
  cases hslot : cache.slot? key with
  | none =>
    rw [get, hslot]
    exact fun _ _ h => h
  | some slot =>
    cases hidle : cache.idle with
    | zero =>
      simp only [get, hslot, hidle]
      exact erase_within cache key
    | endless =>
      simp only [get, hslot, hidle]
      intro key' value h
      rw [cached?_count, cached?_place _ _ (by rw [cached?_erase, if_pos rfl])] at h
      split at h
      · rename_i heq
        rw [← heq, cached?, hslot]
        exact h
      · exact erase_within cache key key' value h

end EntityCatalog.Cache
