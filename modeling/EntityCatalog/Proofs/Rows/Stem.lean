import EntityCatalog.Proofs.Rows.Content

/-!
# The interval of a stem

The keys that extend a stem are those from the stem up to its successor. Hence a scan, which
stops at the first key that does not extend the stem, and a range agree with the plain choice
of the rows whose keys extend it.
-/

namespace EntityCatalog

/-- A stem of `0xff` bytes alone has no successor, and every key from it on extends it. -/
theorem Bytes.le_iff_of_successor_none {stem : Bytes} (h : Bytes.successor stem = none)
    (key : Bytes) : ¬ key < stem ↔ stem <+: key := by
  induction stem generalizing key with
  | nil => simp
  | cons b rest ih =>
    simp only [Bytes.successor] at h
    split at h
    · exact absurd h (by simp)
    · rename_i hrest
      split at h
      · rename_i hb
        cases key with
        | nil => simp
        | cons c key =>
          have hc : ¬ 255 < c := by
            intro hlt
            have := UInt8.lt_iff_toNat_lt.mp hlt
            have := c.toNat_lt
            simp at *
            omega
          rw [List.cons_lt_cons_iff, List.cons_prefix_cons, ← ih hrest key, hb]
          constructor
          · intro hnlt
            have hle : ¬ c < 255 := fun hlt => hnlt (Or.inl hlt)
            have heq : 255 = c := UInt8.le_antisymm (UInt8.not_lt.mp hle) (UInt8.not_lt.mp hc)
            exact ⟨heq, fun hlt => hnlt (Or.inr ⟨heq.symm, hlt⟩)⟩
          · rintro ⟨heq, hnlt⟩ (hlt | ⟨_, hlt⟩)
            · exact UInt8.lt_irrefl _ (heq ▸ hlt)
            · exact hnlt hlt
      · exact absurd h (by simp)

/-- The keys that extend a stem are those from the stem up to its successor. -/
theorem Bytes.le_and_lt_iff_of_successor_some {stem above : Bytes}
    (h : Bytes.successor stem = some above) (key : Bytes) :
    ¬ key < stem ∧ key < above ↔ stem <+: key := by
  induction stem generalizing above key with
  | nil => exact absurd h (by simp [Bytes.successor])
  | cons b rest ih =>
    simp only [Bytes.successor] at h
    split at h
    · rename_i next hrest
      obtain rfl := Option.some.inj h
      cases key with
      | nil => simp
      | cons c key =>
        rw [List.cons_lt_cons_iff, List.cons_lt_cons_iff, List.cons_prefix_cons,
          ← ih hrest key]
        constructor
        · rintro ⟨hnlt, hlt | ⟨heq, hlt⟩⟩
          · exact absurd (Or.inl hlt) hnlt
          · exact ⟨heq.symm, fun hless => hnlt (Or.inr ⟨heq, hless⟩), hlt⟩
        · rintro ⟨rfl, hnlt, hlt⟩
          refine ⟨?_, Or.inr ⟨rfl, hlt⟩⟩
          rintro (hless | ⟨_, hless⟩)
          · exact UInt8.lt_irrefl _ hless
          · exact hnlt hless
    · rename_i hrest
      split at h
      · exact absurd h (by simp)
      · rename_i hb
        obtain rfl := Option.some.inj h
        have hsucc : (b + 1).toNat = b.toNat + 1 := by
          have hne : b.toNat ≠ 255 := fun heq => hb (UInt8.toNat_inj.mp heq)
          have := b.toNat_lt
          rw [UInt8.toNat_add]
          simp
          omega
        cases key with
        | nil => simp
        | cons c key =>
          rw [List.cons_lt_cons_iff, List.cons_lt_cons_iff, List.cons_prefix_cons,
            ← Bytes.le_iff_of_successor_none hrest key]
          constructor
          · rintro ⟨hnlt, hlt | ⟨_, hlt⟩⟩
            · have hle : ¬ c < b := fun hless => hnlt (Or.inl hless)
              have heq : b = c := by
                rw [UInt8.lt_iff_toNat_lt] at hlt hle
                exact UInt8.toNat_inj.mp (by omega)
              exact ⟨heq, fun hless => hnlt (Or.inr ⟨heq.symm, hless⟩)⟩
            · exact absurd hlt (List.not_lt_nil _)
          · rintro ⟨rfl, hnlt⟩
            refine ⟨?_, Or.inl (UInt8.lt_iff_toNat_lt.mpr (by omega))⟩
            rintro (hless | ⟨_, hless⟩)
            · exact UInt8.lt_irrefl _ hless
            · exact hnlt hless

namespace Rows

/-- The interval of a stem holds exactly the keys that extend it. -/
theorem inStem_iff (stem key : Bytes) : inStem stem key = true ↔ stem <+: key := by
  simp only [inStem, inRange, Bool.and_eq_true, Bool.not_eq_eq_eq_not, Bool.not_true,
    decide_eq_false_iff_not]
  cases h : Bytes.successor stem with
  | none => simpa using Bytes.le_iff_of_successor_none h key
  | some above => simpa using Bytes.le_and_lt_iff_of_successor_some h key

/-- Above a stem, the keys that extend it come before all others. -/
theorem stem_of_lt_of_stem {stem low high : Bytes} (hlow : ¬ low < stem) (hlt : low < high)
    (h : stem <+: high) : stem <+: low := by
  rw [← inStem_iff] at h ⊢
  simp only [inStem, inRange, Bool.and_eq_true, Bool.not_eq_eq_eq_not, Bool.not_true,
    decide_eq_false_iff_not] at h ⊢
  refine ⟨hlow, ?_⟩
  cases hs : Bytes.successor stem with
  | none => rfl
  | some above =>
    have habove : high < above := by simpa [hs] using h.2
    simpa using List.lt_trans hlt habove

/-- A key that extends a stem does not come before it. -/
theorem not_lt_of_prefix {stem key : Bytes} (h : stem <+: key) : ¬ key < stem := by
  have hin := (inStem_iff stem key).mpr h
  simp only [inStem, inRange, Bool.and_eq_true, Bool.not_eq_eq_eq_not, Bool.not_true,
    decide_eq_false_iff_not] at hin
  exact hin.1

/-- From the stem on, the rows that extend it are the first ones. -/
theorem takeWhile_stem_eq_filter (stem : Bytes) {list : List Row} (h : KeysIncrease list)
    (habove : ∀ row ∈ list, ¬ row.1 < stem) :
    list.takeWhile (fun row => stem.isPrefixOf row.1) =
      list.filter (fun row => stem.isPrefixOf row.1) := by
  induction list with
  | nil => rfl
  | cons head rest ih =>
    obtain ⟨hhead, hrest⟩ := List.pairwise_cons.mp h
    by_cases hstem : stem.isPrefixOf head.1 = true
    · simp only [List.takeWhile_cons, List.filter_cons, hstem, if_true]
      rw [ih hrest fun row hrow => habove row (List.mem_cons_of_mem _ hrow)]
    · have hnone : ∀ row ∈ rest, ¬ stem.isPrefixOf row.1 = true := by
        intro row hrow hlater
        have hlow := habove head List.mem_cons_self
        exact hstem (List.isPrefixOf_iff_prefix.mpr
          (stem_of_lt_of_stem hlow (hhead row hrow) (List.isPrefixOf_iff_prefix.mp hlater)))
      simp only [List.takeWhile_cons, List.filter_cons, hstem, Bool.false_eq_true, if_false]
      exact (List.filter_eq_nil_iff.mpr hnone).symm

/-- In an ordered list, dropping rows before the stem drops none that extends it. -/
theorem filter_dropWhile_stem (stem : Bytes) (list : List Row) :
    (list.dropWhile fun row => row.1 < stem).filter (fun row => stem.isPrefixOf row.1) =
      list.filter (fun row => stem.isPrefixOf row.1) := by
  induction list with
  | nil => rfl
  | cons head rest ih =>
    by_cases hlt : head.1 < stem
    · have hstem : ¬ stem.isPrefixOf head.1 = true := fun hstem =>
        not_lt_of_prefix (List.isPrefixOf_iff_prefix.mp hstem) hlt
      rw [List.dropWhile_cons_of_pos (by simpa using hlt), ih]
      simp [hstem]
    · rw [List.dropWhile_cons_of_neg (by simpa using hlt)]

/-- After dropping the rows before the stem, none comes before it. -/
theorem not_lt_of_mem_dropWhile (stem : Bytes) {list : List Row} (h : KeysIncrease list) {row : Row}
    (hrow : row ∈ list.dropWhile fun row => row.1 < stem) : ¬ row.1 < stem := by
  induction list with
  | nil => simp at hrow
  | cons head rest ih =>
    obtain ⟨hhead, hrest⟩ := List.pairwise_cons.mp h
    by_cases hlt : head.1 < stem
    · rw [List.dropWhile_cons_of_pos (by simpa using hlt)] at hrow
      exact ih hrest hrow
    · rw [List.dropWhile_cons_of_neg (by simpa using hlt)] at hrow
      rcases List.mem_cons.mp hrow with rfl | hrow
      · exact hlt
      · exact fun hless => hlt (List.lt_trans (hhead row hrow) hless)

/-- A scan gives exactly the rows whose keys extend the stem, in order. -/
theorem scan_eq_filter (rows : Rows) (stem : Bytes) :
    rows.scan stem = rows.toList.filter (fun row => stem.isPrefixOf row.1) := by
  have hsorted : KeysIncrease (rows.toList.dropWhile fun row => row.1 < stem) :=
    rows.increasing.sublist (List.dropWhile_sublist _)
  rw [scan, takeWhile_stem_eq_filter stem hsorted
    fun row hrow => not_lt_of_mem_dropWhile stem rows.increasing hrow]
  exact filter_dropWhile_stem stem rows.toList

/-- The interval of a stem selects the rows that a scan gives. -/
theorem filter_inStem (rows : Rows) (stem : Bytes) :
    (rows.toList.filter fun row => inStem stem row.1) = rows.scan stem := by
  rw [scan_eq_filter]
  refine List.filter_congr fun row _ => Bool.eq_iff_iff.mpr ?_
  rw [inStem_iff, List.isPrefixOf_iff_prefix]

/-- A scan finds nothing exactly when no stored key extends the stem. -/
theorem scan_eq_nil_iff (rows : Rows) (stem : Bytes) :
    rows.scan stem = [] ↔ ∀ key, stem <+: key → rows.get? key = none := by
  rw [scan_eq_filter, List.filter_eq_nil_iff]
  constructor
  · intro h key hstem
    cases hvalue : rows.get? key with
    | none => rfl
    | some value =>
      exact absurd (List.isPrefixOf_iff_prefix.mpr hstem)
        (h (key, value) ((mem_toList_iff rows _).mpr hvalue))
  · intro h row hrow hstem
    have hnone := h row.1 (List.isPrefixOf_iff_prefix.mp hstem)
    rw [(mem_toList_iff rows row).mp hrow] at hnone
    exact absurd hnone (by simp)

/-- Removing a stem takes away exactly the keys that extend it. -/
theorem get?_eraseStem (rows : Rows) (stem key : Bytes) :
    (rows.eraseStem stem).get? key = if stem <+: key then none else rows.get? key := by
  rw [eraseStem, get?_filter_key rows (fun other => !inStem stem other) key]
  by_cases h : stem <+: key
  · simp [(inStem_iff stem key).mpr h, h]
  · have hin : inStem stem key = false := by
      rw [Bool.eq_false_iff]
      exact fun htrue => h ((inStem_iff stem key).mp htrue)
    simp [hin, h]

end Rows

end EntityCatalog
