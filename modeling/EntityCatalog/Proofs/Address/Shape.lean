import EntityCatalog.Proofs.Address.Hierarchy
import EntityCatalog.Proofs.Layout

/-!
# The shape of the keys of an address

A key that is found or resolved has as many ids as the address has steps, and its kind has keys. So the
key of one entity starts with the code of its kind and a separator, and so does every key that extends
a wildcard key or a stem of an entity. This holds whatever the rows hold and whatever is cached.
-/

namespace EntityCatalog

/-- The kinds beneath a kind have it among their levels, at its own depth. -/
theorem Kind.mem_descendants_iff (upper lower : Kind) :
    lower ∈ upper.descendants ↔ ∃ depth levels, upper.depth = some depth ∧
      lower.ancestors = some levels ∧ levels[depth]? = some upper := by
  rw [descendants, List.mem_filter, and_iff_right (mem_all lower), isBeneath]
  cases upper.depth <;> cases lower.ancestors <;> simp

/-- A kind that lies beneath another has keys. -/
theorem Kind.isEncodable_of_mem_descendants {upper lower : Kind} (h : lower ∈ upper.descendants) :
    lower.isEncodable = true := by
  obtain ⟨depth, levels, -, hlevels, -⟩ := (mem_descendants_iff upper lower).mp h
  rw [isEncodable, hlevels, Option.isSome_some]

/-- What extends a stem of an entity is the key of an entity. -/
theorem Layout.isEntity_of_stemBeneath {kind upper lower : Kind} {ids : List UInt64} {other : Bytes}
    (hlower : lower ∈ upper.descendants)
    (h : Key.stemBeneath (Key.encode ⟨kind, ids, false⟩) lower <+: other) : IsEntity other := by
  rw [Key.stemBeneath_encode] at h
  exact isEntity_of_stem (Kind.isEncodable_of_mem_descendants hlower) h

namespace Address

/-- Finding names in turn gives one id for each, after the ids above. -/
theorem length_of_findSteps {steps : List (Kind × String)} {above ids : List UInt64} {names : Names}
    (h : (findSteps steps above names).1 = .ok (some ids)) :
    ids.length = above.length + steps.length := by
  induction steps generalizing above names with
  | nil =>
    obtain rfl := Option.some.inj (Except.ok.inj h)
    rfl
  | cons step rest ih =>
    obtain ⟨kind, name⟩ := step
    rw [findSteps] at h
    split at h
    · rw [ih h, List.length_append, List.length_singleton, List.length_cons]
      omega
    · exact absurd h (by simp)
    · exact absurd h (by simp)

/-- Resolving names in turn gives one id for each, after the ids above. -/
theorem length_of_resolveSteps {steps : List (Kind × String)} {above ids : List UInt64}
    {names : Names} (h : (resolveSteps steps above names).1 = .ok ids) :
    ids.length = above.length + steps.length := by
  induction steps generalizing above names with
  | nil =>
    obtain rfl := Except.ok.inj h
    rfl
  | cons step rest ih =>
    obtain ⟨kind, name⟩ := step
    rw [resolveSteps] at h
    split at h
    · rw [ih h, List.length_append, List.length_singleton, List.length_cons]
      omega
    · exact absurd h (by simp)

/-- A key of an address: the address passes its checks, and each of its steps has an id. -/
structure Shaped (address : Address) (key : Key) : Prop where
  fitting : address.Fitting
  ids : ∃ ids, key = address.keyOf ids ∧ ids.length = (address.steps address.kinds).length

/-- A key that was looked up has the shape of its address. -/
theorem shaped_of_findKey {address : Address} {names : Names} {key : Key}
    (h : (address.findKey names).1 = .ok (some key)) : address.Shaped key := by
  rw [findKey] at h
  split at h
  · exact absurd h (by simp)
  · rename_i kinds hlevels
    obtain rfl := kinds_of_levels hlevels
    split at h
    · rename_i ids _ hsteps
      obtain rfl := Option.some.inj (Except.ok.inj h)
      have hlength := length_of_findSteps (congrArg Prod.fst hsteps)
      exact ⟨hlevels, ids, rfl, by rw [hlength, List.length_nil, Nat.zero_add]⟩
    · exact absurd h (by simp)
    · exact absurd h (by simp)

/-- A key that was resolved has the shape of its address. -/
theorem shaped_of_resolveKey {address : Address} {names : Names} {key : Key}
    (h : (address.resolveKey names).1 = .ok key) : address.Shaped key := by
  rw [resolveKey] at h
  split at h
  · exact absurd h (by simp)
  · rename_i kinds hlevels
    obtain rfl := kinds_of_levels hlevels
    split at h
    · rename_i ids _ hsteps
      obtain rfl := Except.ok.inj h
      have hlength := length_of_resolveSteps (congrArg Prod.fst hsteps)
      exact ⟨hlevels, ids, rfl, by rw [hlength, List.length_nil, Nat.zero_add]⟩
    · exact absurd h (by simp)

/-- What extends a key of an address is the key of an entity. -/
theorem Shaped.isEntity {address : Address} {key : Key} {other : Bytes} (h : address.Shaped key)
    (hother : key.encode <+: other) : Layout.IsEntity other := by
  obtain ⟨hfitting, ids, rfl, hlength⟩ := h
  have hkind : address.kind.isEncodable = true := by
    rw [Kind.isEncodable, hfitting.ancestors, Option.isSome_some]
  rw [keyOf] at hother
  cases hwildcard : address.path.isWildcard with
  | true =>
    rw [hwildcard] at hother
    exact Layout.isEntity_of_stem hkind hother
  | false =>
    rw [hwildcard] at hother
    have hids : ids ≠ [] := by
      rintro rfl
      simp [steps, hwildcard] at hlength
    exact (Layout.isEntity_encode hkind hids).extend hother

end Address

end EntityCatalog
