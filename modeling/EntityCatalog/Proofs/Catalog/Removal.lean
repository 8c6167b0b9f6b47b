import EntityCatalog.Proofs.Catalog.Kept

/-!
# Removing an entity with everything beneath it

The keys beneath an entity are those that extend one of its stems. In well-kept rows they are the
keys of the entities whose addresses lie beneath its address, so a removal takes away the records at
the address and beneath it, and no others.
-/

namespace EntityCatalog

/-- Erasing stems and a key is never abandoned and leaves the rows of all other keys. -/
theorem Rows.batch?_eraseStems (stems : List Bytes) (key : Bytes) (rows : Rows) :
    ∃ rows', batch? (stems.map .eraseStem ++ [.erase key]) rows = some rows' ∧
      ∀ key', rows'.get? key' =
        if key = key' ∨ ∃ stem ∈ stems, stem <+: key' then none else rows.get? key' := by
  induction stems generalizing rows with
  | nil =>
    refine ⟨rows.erase key, rfl, fun key' => ?_⟩
    rw [get?_erase]
    simp
  | cons stem rest ih =>
    obtain ⟨rows', hbatch, hget⟩ := ih (rows.eraseStem stem)
    refine ⟨rows', hbatch, fun key' => ?_⟩
    rw [hget key', get?_eraseStem]
    by_cases hstem : stem <+: key'
    · simp [hstem]
    · simp [hstem]

namespace Catalog

/-- What a removal leaves. -/
theorem get?_batch_removal (rows : Rows) (key : Bytes) (kind : Kind) (key' : Bytes) :
    (rows.batch (removal key kind)).2.get? key' =
      if key = key' ∨ ∃ lower ∈ kind.descendants, Key.stemBeneath key lower <+: key' then none
      else rows.get? key' := by
  obtain ⟨rows', hbatch, hget⟩ :=
    Rows.batch?_eraseStems (kind.descendants.map (Key.stemBeneath key)) key rows
  have hremoval : removal key kind =
      (kind.descendants.map (Key.stemBeneath key)).map .eraseStem ++ [.erase key] := by
    rw [removal, List.map_map]
    rfl
  rw [Rows.batch_eq, hremoval, hbatch]
  dsimp only
  have hstems : (∃ stem ∈ kind.descendants.map (Key.stemBeneath key), stem <+: key') ↔
      ∃ lower ∈ kind.descendants, Key.stemBeneath key lower <+: key' := by
    constructor
    · rintro ⟨stem, hmem, hstem⟩
      obtain ⟨lower, hlower, rfl⟩ := List.mem_map.mp hmem
      exact ⟨lower, hlower, hstem⟩
    · rintro ⟨lower, hlower, hstem⟩
      exact ⟨_, List.mem_map_of_mem hlower, hstem⟩
  simp only [hget key', hstems]

/-- Removing an entity and all beneath it leaves the rows of other families. -/
theorem get?_batch_removal_of_getElem? (rows : Rows) (kind : Kind) (ids : List UInt64) {other : Bytes}
    {b : UInt8} (hother : other[Key.codeWidth]? = some b) (hb : b ≠ Key.separator) :
    (rows.batch (removal (Key.encode ⟨kind, ids, false⟩) kind)).2.get? other = rows.get? other := by
  rw [get?_batch_removal, if_neg]
  rintro (heq | ⟨lower, -, hstem⟩)
  · exact Layout.encode_ne_of_getElem? _ hother hb heq
  · rw [Key.stemBeneath_encode] at hstem
    exact Layout.not_stem_prefix_of_getElem? hother hb hstem

/-- Something is found beneath a key exactly when a row is stored under a key that extends one of its
stems. -/
theorem hasBeneath_eq_true_iff (rows : Rows) (key : Bytes) (kind : Kind) :
    hasBeneath rows key kind = true ↔ ∃ lower ∈ kind.descendants, ∃ other,
      Key.stemBeneath key lower <+: other ∧ rows.get? other ≠ none := by
  simp only [hasBeneath, List.any_eq_true, Bool.not_eq_eq_eq_not, Bool.not_true,
    List.isEmpty_eq_false_iff, ne_eq, Rows.scan_eq_nil_iff, Classical.not_forall, exists_prop]

end Catalog

namespace Address

/-- One entity lies beneath another exactly when its ids go on from the ids of the other. -/
theorem beneath_iff_ids {rows : Rows} (hrows : Names.Consistent rows) {upper lower : Address}
    (hupper : upper.Single) (hlower : lower.Single) {ids ids' : List UInt64}
    (hids : trail? rows upper.line [] = some ids) (hids' : trail? rows lower.line [] = some ids') :
    upper.Beneath lower ↔ ids <+: ids' ∧ ids.length < ids'.length := by
  rw [← line_prefix_levelSteps_iff hupper hlower.fitting, trail?_length hids, trail?_length hids']
  have hline : lower.line = lower.levelSteps lower.kinds ++ [(lower.kind, lower.path.leaf)] := rfl
  constructor
  · intro hstem
    obtain ⟨ids₀, hids₀, hids₀'⟩ := trail?_of_prefix (hstem.trans (List.prefix_append _ _)) hids'
    rw [hids] at hids₀
    obtain rfl := Option.some.inj hids₀
    refine ⟨hids₀', Nat.lt_of_le_of_lt hstem.length_le ?_⟩
    rw [hline, List.length_append]
    exact Nat.lt_succ_self _
  · rintro ⟨hstem, hlength⟩
    have hlines := prefix_of_trail?_prefix hrows hids hids' hstem
    rw [hline, List.prefix_concat_iff, ← hline] at hlines
    rcases hlines with heq | hlines
    · rw [heq] at hlength
      exact absurd hlength (Nat.lt_irrefl _)
    · exact hlines

/-- One entity lies beneath another exactly when its key extends a stem of the other. -/
theorem beneath_iff_stem {rows : Rows} (hrows : Names.Consistent rows) {upper lower : Address}
    {key key' : Key} (hkey : upper.storedKey? rows = some key) (hconcrete : key.wildcard = false)
    (hkey' : lower.storedKey? rows = some key') (hconcrete' : key'.wildcard = false) :
    (∃ kind ∈ upper.kind.descendants, Key.stemBeneath key.encode kind <+: key'.encode) ↔
      upper.Beneath lower := by
  have hupper := single_of_storedKey? hkey hconcrete
  have hlower := single_of_storedKey? hkey' hconcrete'
  obtain ⟨ids, hids, rfl⟩ := (hupper.storedKey?_eq_some_iff rows key).mp hkey
  obtain ⟨ids', hids', rfl⟩ := (hlower.storedKey?_eq_some_iff rows key').mp hkey'
  simp only [Key.stemBeneath_encode, Key.wildcard_prefix_iff]
  rw [beneath_iff_ids hrows hupper hlower hids hids']
  constructor
  · rintro ⟨kind, -, -, hstem⟩
    exact hstem
  · intro hstem
    refine ⟨lower.kind, ?_, rfl, hstem⟩
    rw [Kind.descendants, List.mem_filter]
    exact ⟨Kind.mem_all lower.kind,
      ((beneath_iff_ids hrows hupper hlower hids hids').mpr hstem).1⟩

end Address

namespace Kept

variable {rows : Rows} {address : Address} {key : Key}

/-- A removal leaves every row that belongs to no entity. -/
theorem get?_batch_removal_of_ne (hkey : address.storedKey? rows = some key)
    (hconcrete : key.wildcard = false) {other : Bytes} {b : UInt8}
    (hb : other[Key.codeWidth]? = some b) (hseparator : b ≠ Key.separator) :
    (rows.batch (Catalog.removal key.encode address.kind)).2.get? other = rows.get? other := by
  obtain ⟨ids, -, rfl⟩ :=
    ((Address.single_of_storedKey? hkey hconcrete).storedKey?_eq_some_iff rows key).mp hkey
  exact Catalog.get?_batch_removal_of_getElem? rows address.kind ids hb hseparator

/-- A removal leaves the name rows. -/
theorem get?_batch_removal_nameKey (hkey : address.storedKey? rows = some key)
    (hconcrete : key.wildcard = false) (name : String) :
    (rows.batch (Catalog.removal key.encode address.kind)).2.get? (Layout.nameKey name) =
      rows.get? (Layout.nameKey name) :=
  get?_batch_removal_of_ne hkey hconcrete (Layout.nameKey_getElem? name) (by decide)

/-- A removal keeps the rows well kept. -/
theorem removal (h : Kept rows) (hkey : address.storedKey? rows = some key)
    (hconcrete : key.wildcard = false) :
    Kept (rows.batch (Catalog.removal key.encode address.kind)).2 := by
  refine h.of_same_books (get?_batch_removal_nameKey hkey hconcrete) (fun id => ?_) fun _ _ hrow => ?_
  · exact get?_batch_removal_of_ne hkey hconcrete (Layout.idKey_getElem? id) (by decide)
  · rw [Catalog.get?_batch_removal] at hrow
    split at hrow
    · exact absurd hrow (by simp)
    · exact Or.inl hrow

/-- A removal takes away the records at the address and beneath it, and no others. -/
theorem record?_removal (h : Kept rows) (hkey : address.storedKey? rows = some key)
    (hconcrete : key.wildcard = false) (other : Address) :
    other.record? (rows.batch (Catalog.removal key.encode address.kind)).2 =
      if other = address ∨ address.Beneath other then none else other.record? rows := by
  have hstored := Address.storedKey?_congr (get?_batch_removal_nameKey hkey hconcrete) other
  rw [Address.record?, hstored]
  cases hother : other.storedKey? rows with
  | none =>
    have hnone : other.record? rows = none := by rw [Address.record?, hother, Option.bind_none]
    rw [Option.bind_none, hnone, ite_self]
  | some key' =>
    rw [Option.bind_some, Catalog.get?_batch_removal]
    cases hrow : rows.get? key'.encode with
    | none =>
      have hnone : other.record? rows = none := by
        rw [Address.record?, hother, Option.bind_some, hrow, Option.bind_none]
      rw [hnone, ite_self, ite_self, Option.bind_none]
    | some bytes =>
      have hconcrete' := (h.entity hrow).1
      have heq : key.encode = key'.encode ↔ other = address := by
        constructor
        · intro heq
          obtain rfl := Key.encode_injective heq
          exact Address.storedKey?_injective h.consistent hconcrete hother hkey
        · rintro rfl
          rw [hother] at hkey
          rw [Option.some.inj hkey]
      have hbeneath := Address.beneath_iff_stem h.consistent hkey hconcrete hother hconcrete'
      simp only [Address.record?, hother, Option.bind_some, hrow, heq, hbeneath]
      split <;> rfl

/-- An entity has rows beneath it exactly when there is a record beneath its address. -/
theorem hasBeneath_iff (h : Kept rows) (hkey : address.storedKey? rows = some key)
    (hconcrete : key.wildcard = false) :
    Catalog.hasBeneath rows key.encode address.kind = true ↔
      ∃ other, address.Beneath other ∧ other.record? rows ≠ none := by
  rw [Catalog.hasBeneath_eq_true_iff]
  constructor
  · rintro ⟨kind, hkind, bytes, hstem, hrow⟩
    obtain ⟨value, hvalue⟩ := Option.ne_none_iff_exists'.mp hrow
    -- A key that extends a stem has a separator for its third byte, so it is that of an entity.
    have haccounted := h.accounted bytes value hvalue
    have hseparator : bytes[Key.codeWidth]? = some Key.separator := by
      obtain ⟨ids, -, rfl⟩ :=
        ((Address.single_of_storedKey? hkey hconcrete).storedKey?_eq_some_iff rows key).mp hkey
      rw [Key.stemBeneath_encode] at hstem
      exact Layout.getElem?_codeWidth_of_stem hstem
    cases haccounted with
    | mark mark => exact absurd hseparator (by decide)
    | name name id => exact absurd (hseparator.symm.trans (Layout.nameKey_getElem? name)) (by decide)
    | id id name => exact absurd (hseparator.symm.trans (Layout.idKey_getElem? id)) (by decide)
    | entity other key' record hkey' hconcrete' hfits =>
      refine ⟨other, (Address.beneath_iff_stem h.consistent hkey hconcrete hkey' hconcrete').mp
        ⟨kind, hkind, hstem⟩, ?_⟩
      rw [(h.record?_eq_some_iff other record).mpr ⟨key', hkey', hconcrete', hfits, hvalue⟩]
      exact Option.some_ne_none record
  · rintro ⟨other, hbeneath, hrecord⟩
    obtain ⟨record, hrecord⟩ := Option.ne_none_iff_exists'.mp hrecord
    obtain ⟨key', hkey', hconcrete', -, hrow⟩ := (h.record?_eq_some_iff other record).mp hrecord
    obtain ⟨kind, hkind, hstem⟩ :=
      (Address.beneath_iff_stem h.consistent hkey hconcrete hkey' hconcrete').mpr hbeneath
    exact ⟨kind, hkind, key'.encode, hstem, by rw [hrow]; exact Option.some_ne_none _⟩

end Kept

end EntityCatalog
