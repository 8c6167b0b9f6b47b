import EntityCatalog.Proofs.Rows.Stem

/-!
# Reading the rows of a scan

A scan lists the rows below a stem in the order of their keys. When each of these rows can be read,
so can all of them in turn. The last row of a stem is the last one of the scan.
-/

namespace EntityCatalog

/-- Elements that can each be read are read in turn. -/
theorem mapM_eq_ok_map {ε α β : Type} {read : α → Except ε β} {value : α → β} {list : List α}
    (h : ∀ a ∈ list, read a = .ok (value a)) : list.mapM read = .ok (list.map value) := by
  induction list with
  | nil => rfl
  | cons a rest ih =>
    rw [List.mapM_cons, h a List.mem_cons_self, ih fun b hb => h b (List.mem_cons_of_mem _ hb)]
    rfl

namespace Rows

/-- A scan finds the stored rows whose keys extend the stem. -/
theorem mem_scan_iff (rows : Rows) (stem : Bytes) (row : Row) :
    row ∈ rows.scan stem ↔ stem <+: row.1 ∧ rows.get? row.1 = some row.2 := by
  rw [scan_eq_filter, List.mem_filter, mem_toList_iff, List.isPrefixOf_iff_prefix, and_comm]

/-- A scan lists rows in the order of their keys. -/
theorem scan_keysIncrease (rows : Rows) (stem : Bytes) : KeysIncrease (rows.scan stem) := by
  rw [scan_eq_filter]
  exact rows.increasing.sublist List.filter_sublist

/-- The range of a stem ends with the row with which a scan ends. -/
theorem last?_eq_getLast?_scan (rows : Rows) (stem : Bytes) :
    rows.last? stem = (rows.scan stem).getLast? := by
  rw [last?, filter_inStem]

/-- There is no last row exactly when no stored key extends the stem. -/
theorem last?_eq_none_iff (rows : Rows) (stem : Bytes) :
    rows.last? stem = none ↔ ∀ key, stem <+: key → rows.get? key = none := by
  rw [last?_eq_getLast?_scan, List.getLast?_eq_none_iff, scan_eq_nil_iff]

/-- The last row is stored, and its key is the greatest one that extends the stem. -/
theorem last?_greatest {rows : Rows} {stem : Bytes} {row : Row} (h : rows.last? stem = some row) :
    (stem <+: row.1 ∧ rows.get? row.1 = some row.2) ∧
      ∀ key, stem <+: key → rows.get? key ≠ none → key = row.1 ∨ key < row.1 := by
  rw [last?_eq_getLast?_scan] at h
  refine ⟨(mem_scan_iff rows stem row).mp (List.mem_of_getLast? h), fun key hstem hkey => ?_⟩
  obtain ⟨value, hvalue⟩ := Option.ne_none_iff_exists'.mp hkey
  have hmem : (key, value) ∈ rows.scan stem := (mem_scan_iff rows stem _).mpr ⟨hstem, hvalue⟩
  obtain ⟨before, hscan⟩ := List.getLast?_eq_some_iff.mp h
  have hsorted := rows.scan_keysIncrease stem
  rw [hscan] at hmem hsorted
  rcases List.mem_append.mp hmem with hbefore | hlast
  · exact Or.inr ((List.pairwise_append.mp hsorted).2.2 _ hbefore row List.mem_cons_self)
  · exact Or.inl (congrArg Prod.fst (List.mem_singleton.mp hlast))

end Rows

end EntityCatalog
