import EntityCatalog.Proofs.Bytes.Order
import EntityCatalog.Proofs.Key.Codec
import EntityCatalog.Proofs.Rows.Scan

/-!
# Keys in the order of their ids

The bytes of keys repeat the hierarchy. The wildcard key of some ids is a stem of the concrete keys of
its kind whose ids properly extend them, and of no others, and the stem beneath an entity is such a
wildcard key. The byte order of the concrete keys of a kind is the lexicographic order of their ids as
numbers. None of this asks for a byte that ids do not hold: every segment has the same width, so two
keys are compared one segment after another.
-/

namespace EntityCatalog.Key

/-- The ids of two segments decide their order. If these are equal, what follows decides. -/
theorem segment_append_lt_iff (id id' : UInt64) (a b : Bytes) :
    segment id ++ a < segment id' ++ b ↔ id < id' ∨ id = id' ∧ a < b := by
  have hless : segment id < segment id' ↔ id < id' := by
    rw [← wordBytes_lt_iff]
    exact append_lt_append_iff [separator]
  have hequal : segment id = segment id' ↔ id = id' := ⟨segment_injective, congrArg segment⟩
  -- Segments have one width, so no byte of an id is taken for the separator of another.
  rw [Bytes.append_lt_append_iff_of_length (by simp), hless, hequal]

/-- The segments of ids are in the lexicographic order of the ids. -/
theorem flatMap_segment_lt_iff (ids ids' : List UInt64) :
    ids.flatMap segment < ids'.flatMap segment ↔ ids < ids' := by
  induction ids generalizing ids' with
  | nil =>
    cases ids' with
    | nil => simp
    | cons id' rest' => simp [segment]
  | cons id rest ih =>
    cases ids' with
    | nil => simp
    | cons id' rest' =>
      rw [List.flatMap_cons, List.flatMap_cons, segment_append_lt_iff, ih, List.cons_lt_cons_iff]

/-- The concrete keys of a kind are in the lexicographic order of their ids. -/
theorem encode_lt_encode_iff (kind : Kind) (ids ids' : List UInt64) :
    encode ⟨kind, ids, false⟩ < encode ⟨kind, ids', false⟩ ↔ ids < ids' := by
  simp only [encode, Bool.false_eq_true, if_false, List.append_nil]
  rw [append_lt_append_iff, flatMap_segment_lt_iff]

/-- A wildcard key is a stem of the concrete keys of its kind of whose ids its own are a strict
prefix. -/
theorem wildcard_prefix_iff_strict (kind kind' : Kind) (ids ids' : List UInt64) :
    encode ⟨kind, ids, true⟩ <+: encode ⟨kind', ids', false⟩ ↔
      kind = kind' ∧ ids <+: ids' ∧ ids ≠ ids' := by
  rw [wildcard_prefix_iff]
  constructor
  · rintro ⟨hkind, hids, hlength⟩
    exact ⟨hkind, hids, fun heq => Nat.ne_of_lt hlength (congrArg List.length heq)⟩
  · rintro ⟨hkind, hids, hne⟩
    exact ⟨hkind, hids, Nat.lt_of_le_of_ne hids.length_le fun heq => hne (hids.eq_of_length heq)⟩

/-- Among rows of concrete keys, the scan of a wildcard key finds those of its kind below its ids. -/
theorem mem_scan_wildcard_iff {rows : Rows}
    (hrows : ∀ row ∈ rows.toList, ∃ kind ids, row.1 = encode ⟨kind, ids, false⟩) (kind : Kind)
    (ids : List UInt64) (row : Row) :
    row ∈ rows.scan (encode ⟨kind, ids, true⟩) ↔
      row ∈ rows.toList ∧
        ∃ lower, row.1 = encode ⟨kind, lower, false⟩ ∧ ids <+: lower ∧ ids ≠ lower := by
  rw [Rows.mem_scan_iff, ← Rows.mem_toList_iff, and_comm]
  refine and_congr_right fun hrow => ⟨fun hstem => ?_, ?_⟩
  · obtain ⟨kind', lower, hkey⟩ := hrows row hrow
    rw [hkey, wildcard_prefix_iff_strict] at hstem
    obtain ⟨rfl, hbelow⟩ := hstem
    exact ⟨lower, hkey, hbelow⟩
  · rintro ⟨lower, hkey, hbelow⟩
    rw [hkey, wildcard_prefix_iff_strict]
    exact ⟨rfl, hbelow⟩

/-- Byte prefixes and the byte order of keys mirror the hierarchy, whatever bytes the ids hold. So the
scan of a wildcard key, or of the stem beneath an entity, over rows of concrete keys lists exactly the
rows of the kind below the ids, in the order of their keys. -/
theorem bytes_mirror_hierarchy :
    (∀ kind kind' ids ids', encode ⟨kind, ids, true⟩ <+: encode ⟨kind', ids', false⟩ ↔
      kind = kind' ∧ ids <+: ids' ∧ ids ≠ ids') ∧
    (∀ upper kind ids,
      stemBeneath (encode ⟨upper, ids, false⟩) kind = encode ⟨kind, ids, true⟩) ∧
    (∀ kind kind' ids ids', encode ⟨kind, ids, false⟩ = encode ⟨kind', ids', false⟩ ↔
      kind = kind' ∧ ids = ids') ∧
    (∀ kind ids ids',
      encode ⟨kind, ids, false⟩ < encode ⟨kind, ids', false⟩ ↔ ids < ids') ∧
    ∀ rows : Rows, (∀ row ∈ rows.toList, ∃ kind ids, row.1 = encode ⟨kind, ids, false⟩) →
      ∀ upper kind ids stem,
        stem = encode ⟨kind, ids, true⟩ ∨ stem = stemBeneath (encode ⟨upper, ids, false⟩) kind →
        KeysIncrease (rows.scan stem) ∧ ∀ row, row ∈ rows.scan stem ↔
          row ∈ rows.toList ∧
            ∃ lower, row.1 = encode ⟨kind, lower, false⟩ ∧ ids <+: lower ∧ ids ≠ lower := by
  refine ⟨wildcard_prefix_iff_strict, stemBeneath_encode, fun kind kind' ids ids' => ?_,
    encode_lt_encode_iff, fun rows hrows upper kind ids stem hstem => ?_⟩
  · constructor
    · intro heq
      obtain ⟨hkind, hids, -⟩ := Key.mk.inj (encode_injective heq)
      exact ⟨hkind, hids⟩
    · rintro ⟨rfl, rfl⟩
      rfl
  · have hwildcard : stem = encode ⟨kind, ids, true⟩ :=
      hstem.elim id fun heq => heq.trans (stemBeneath_encode upper kind ids)
    rw [hwildcard]
    exact ⟨rows.scan_keysIncrease _, mem_scan_wildcard_iff hrows kind ids⟩

/-- Rows of a catalog, of a schema in it and of another catalog. The ids hold the separator and the
greatest byte. -/
def threeRows : Rows :=
  .ofList [(encode ⟨.catalog, [47, 255], false⟩, [1]), (encode ⟨.schema, [47, 255, 47], false⟩, [2]),
    (encode ⟨.catalog, [48, 0], false⟩, [3])]

/-- A scan beneath a metalake gives its catalog and not that of another, whatever bytes their ids hold.
-/
theorem bytes_mirror_hierarchy_threeRows :
    (∀ row ∈ threeRows.toList, ∃ kind ids, row.1 = encode ⟨kind, ids, false⟩) ∧
      (encode ⟨.catalog, [47, 255], false⟩, [1]) ∈
        threeRows.scan (stemBeneath (encode ⟨.metalake, [47], false⟩) .catalog) ∧
      (encode ⟨.catalog, [48, 0], false⟩, [3]) ∉
        threeRows.scan (stemBeneath (encode ⟨.metalake, [47], false⟩) .catalog) := by
  have hrows : ∀ row ∈ threeRows.toList, ∃ kind ids, row.1 = encode ⟨kind, ids, false⟩ := by
    have hlist : threeRows.toList = [(encode ⟨.catalog, [47, 255], false⟩, [1]),
        (encode ⟨.catalog, [48, 0], false⟩, [3]), (encode ⟨.schema, [47, 255, 47], false⟩, [2])] := rfl
    rw [hlist]
    simp only [List.mem_cons, List.not_mem_nil, or_false]
    rintro row (rfl | rfl | rfl) <;> exact ⟨_, _, rfl⟩
  obtain ⟨-, -, hequal, -, hscan⟩ := bytes_mirror_hierarchy
  obtain ⟨-, hmem⟩ := hscan threeRows hrows .metalake .catalog [47] _ (Or.inr rfl)
  refine ⟨hrows, (hmem _).mpr ⟨by decide, [47, 255], rfl, by decide, by decide⟩, fun hin => ?_⟩
  obtain ⟨-, lower, hkey, hprefix, -⟩ := (hmem _).mp hin
  obtain ⟨-, rfl⟩ := (hequal _ _ _ _).mp hkey
  exact absurd hprefix (by decide)

end EntityCatalog.Key
