import EntityCatalog.Proofs.Address.Shape
import EntityCatalog.Proofs.Catalog.Effects

/-!
# A removal takes away one subtree

What lies beneath an entity is told by keys alone: by the kinds, and by ids that go on from those of the
entity. When the keys of all entity rows are well formed, wherever the rows come from, a cascading
removal takes away the row of the entity and the rows beneath it, at any depth. Without the cascade a
removal is refused exactly when there is such a row beneath, because what is looked for is what would be
removed. The bytes of the ids do not matter, since keys are told apart by widths.
-/

namespace EntityCatalog

/-- One key lies beneath another: its kind has the kind of the other among its levels, at the depth of
that kind, and its ids go on from those of the other. -/
structure Key.Beneath (upper lower : Key) : Prop where
  kind : ∃ depth levels, upper.kind.depth = some depth ∧ lower.kind.ancestors = some levels ∧
    levels[depth]? = some upper.kind
  concrete : lower.wildcard = false
  ids : upper.ids <+: lower.ids
  longer : upper.ids.length < lower.ids.length

/-- A key beneath another is the key of an entity. -/
theorem Key.Beneath.isEntity {upper lower : Key} (h : upper.Beneath lower) :
    Layout.IsEntity lower.encode := by
  obtain ⟨⟨depth, levels, -, hlevels, -⟩, hconcrete, -, hlonger⟩ := h
  obtain ⟨kind, ids, wildcard⟩ := lower
  obtain rfl : wildcard = false := hconcrete
  have hkind : kind.isEncodable = true := by rw [Kind.isEncodable, hlevels, Option.isSome_some]
  exact Layout.isEntity_encode hkind (List.ne_nil_of_length_pos (Nat.zero_lt_of_lt hlonger))

/-- A well-formed concrete key: its bytes read as the key. -/
def Key.Concrete (key : Key) : Prop := decode key.encode = .ok key ∧ key.wildcard = false

namespace Rows

/-- Rows whose entity rows all have well-formed concrete keys. -/
def WellKeyed (rows : Rows) : Prop :=
  ∀ bytes, Layout.IsEntity bytes → rows.get? bytes ≠ none →
    ∃ key : Key, key.Concrete ∧ bytes = key.encode

/-- A row with a well-formed concrete key may be added. -/
theorem WellKeyed.insert {rows : Rows} (h : rows.WellKeyed) {key : Key} (hkey : key.Concrete)
    (value : Bytes) :
    (rows.insert key.encode value).WellKeyed := by
  intro other hentity hother
  by_cases heq : key.encode = other
  · exact ⟨key, hkey, heq.symm⟩
  · rw [Rows.get?_insert_of_ne rows value heq] at hother
    exact h other hentity hother

/-- The stored keys that extend a stem of an entity are those beneath it. -/
theorem WellKeyed.stem_iff {rows : Rows} (h : rows.WellKeyed) (kind : Kind) (ids : List UInt64)
    {other : Bytes} (hother : rows.get? other ≠ none) :
    (∃ lower ∈ kind.descendants,
        Key.stemBeneath (Key.encode ⟨kind, ids, false⟩) lower <+: other) ↔
      ∃ lower : Key, Key.Beneath ⟨kind, ids, false⟩ lower ∧ other = lower.encode := by
  simp only [Key.stemBeneath_encode]
  constructor
  · rintro ⟨lower, hlower, hstem⟩
    have hentity := Layout.isEntity_of_stem (Kind.isEncodable_of_mem_descendants hlower) hstem
    obtain ⟨⟨kind', ids', wildcard⟩, ⟨-, hconcrete⟩, rfl⟩ := h other hentity hother
    obtain rfl : wildcard = false := hconcrete
    obtain ⟨rfl, hids, hlonger⟩ := (Key.wildcard_prefix_iff _ _ _ _).mp hstem
    exact ⟨_, ⟨(Kind.mem_descendants_iff _ _).mp hlower, rfl, hids, hlonger⟩, rfl⟩
  · rintro ⟨⟨lower, ids', wildcard⟩, ⟨hkind, rfl, hids, hlonger⟩, rfl⟩
    exact ⟨lower, (Kind.mem_descendants_iff _ _).mpr hkind,
      (Key.wildcard_prefix_iff _ _ _ _).mpr ⟨rfl, hids, hlonger⟩⟩

end Rows

namespace Catalog

/-- A row is found beneath an entity exactly when one is stored under a key beneath its own. -/
theorem hasBeneath_iff_exists {rows : Rows} (h : rows.WellKeyed) (kind : Kind) (ids : List UInt64) :
    hasBeneath rows (Key.encode ⟨kind, ids, false⟩) kind = true ↔
      ∃ lower : Key, Key.Beneath ⟨kind, ids, false⟩ lower ∧ rows.get? lower.encode ≠ none := by
  rw [hasBeneath_eq_true_iff]
  constructor
  · rintro ⟨kind', hkind', other, hstem, hother⟩
    obtain ⟨lower, hlower, rfl⟩ := (h.stem_iff kind ids hother).mp ⟨kind', hkind', hstem⟩
    exact ⟨lower, hlower, hother⟩
  · rintro ⟨lower, hlower, hother⟩
    obtain ⟨kind', hkind', hstem⟩ := (h.stem_iff kind ids hother).mpr ⟨lower, hlower, rfl⟩
    exact ⟨kind', hkind', lower.encode, hstem, hother⟩

/-- The second rows are the first ones without the row of a key and the rows beneath it. -/
structure LosesSubtree (key : Key) (rows rows' : Rows) : Prop where
  entity : rows'.get? key.encode = none
  beneath : ∀ lower, key.Beneath lower → rows'.get? lower.encode = none
  others : ∀ other, other ≠ key.encode → (∀ lower, key.Beneath lower → other ≠ lower.encode) →
    rows'.get? other = rows.get? other

/-- When no row is stored beneath a key, only its own row is lost. -/
theorem LosesSubtree.get?_of_bare {key : Key} {rows rows' : Rows} (h : LosesSubtree key rows rows')
    (hbare : ¬ ∃ lower, key.Beneath lower ∧ rows.get? lower.encode ≠ none) (other : Bytes) :
    rows'.get? other = if other = key.encode then none else rows.get? other := by
  split
  · rename_i heq
    rw [heq]
    exact h.entity
  · rename_i hne
    by_cases hbeneath : ∃ lower, key.Beneath lower ∧ other = lower.encode
    · obtain ⟨lower, hlower, rfl⟩ := hbeneath
      by_contra hrow
      rw [h.beneath lower hlower] at hrow
      exact hbare ⟨lower, hlower, Ne.symm hrow⟩
    · exact h.others other hne fun lower hlower heq => hbeneath ⟨lower, hlower, heq⟩

/-- A removal takes away the row of its entity and the rows beneath it. -/
theorem losesSubtree_removal {rows : Rows} (h : rows.WellKeyed) (kind : Kind) (ids : List UInt64) :
    LosesSubtree ⟨kind, ids, false⟩ rows
      (rows.batch (removal (Key.encode ⟨kind, ids, false⟩) kind)).2 := by
  refine ⟨?_, fun lower hlower => ?_, fun other hother hbeneath => ?_⟩
  · rw [get?_batch_removal, if_pos (Or.inl rfl)]
  · rw [get?_batch_removal]
    split
    · rfl
    · rename_i hkept
      by_contra hrow
      exact hkept (Or.inr ((h.stem_iff kind ids hrow).mpr ⟨lower, hlower, rfl⟩))
  · rw [get?_batch_removal]
    split
    · rename_i hgone
      by_contra hrow
      have hstem := hgone.resolve_left hother.symm
      obtain ⟨lower, hlower, heq⟩ := (h.stem_iff kind ids fun hnone => hrow hnone.symm).mp hstem
      exact hbeneath lower hlower heq
    · rfl

/-- Loading an entity whose key is found and whose record reads gives the two of them. -/
theorem load_of_found {catalog : Catalog} {address : Address} {key : Key} {bytes : Bytes}
    {record : Record} (hfind : (address.findKey catalog.names).1 = .ok (some key))
    (hrow : catalog.rows.get? key.encode = some bytes) (hread : Record.read bytes = .ok record) :
    (catalog.load address).1 = .ok (some (key.encode, record)) := by
  have hrows := address.rows_findKey catalog.names
  rw [load, onNames]
  cases hfound : address.findKey catalog.names with
  | mk answer names =>
    rw [hfound] at hfind hrows
    obtain rfl : answer = .ok (some key) := hfind
    have hrow' : names.rows.get? key.encode = some bytes :=
      (congrArg (Rows.get? · key.encode) hrows).trans hrow
    simp only [rows, hrow', hread, Except.map]

/-- A removal of an entity that is loaded takes away what is beneath it with its row, unless something is
found there and may not be removed. -/
theorem delete_of_loaded {catalog : Catalog} {address : Address} {key : Key} {record : Record}
    (cascade : Bool) (hconcrete : address.path.isWildcard = false)
    (hload : (catalog.load address).1 = .ok (some (key.encode, record))) :
    let after := catalog.delete address cascade
    if cascade = false ∧ hasBeneath catalog.rows key.encode address.kind = true then
      after.1 = .error (.hasSubEntities address.path) ∧ after.2.rows = catalog.rows
    else
      after.1 = .ok true ∧
        after.2.rows = (catalog.rows.batch (removal key.encode address.kind)).2 := by
  have hsingle := (single_eq_ok_iff address.path).mpr hconcrete
  have hrows := (load_glanced catalog address).rows
  rw [delete, hsingle]
  dsimp only
  cases hloaded : catalog.load address with
  | mk answer loaded =>
    rw [hloaded] at hload hrows
    obtain rfl : answer = .ok (some (key.encode, record)) := hload
    have hsame : loaded.rows = catalog.rows := hrows
    dsimp only
    rw [hsame]
    by_cases hrefused : cascade = false ∧ hasBeneath catalog.rows key.encode address.kind = true
    · rw [if_pos hrefused, hrefused.1, hrefused.2]
      exact ⟨rfl, hsame⟩
    · rw [if_neg hrefused, if_neg (by simpa using hrefused)]
      exact ⟨rfl, rfl⟩

/-- A removal of one entity takes away exactly its subtree. Over rows whose entity rows have well-formed
concrete keys, whoever wrote them, a cascading removal of an entity loses its row and the rows beneath
it, and keeps all others. Without the cascade it is refused exactly when a row is stored beneath, and
then changes nothing; otherwise it loses the row of the entity alone. -/
theorem delete_subtree (catalog : Catalog) (hkeys : catalog.rows.WellKeyed) (address : Address)
    (hconcrete : address.path.isWildcard = false) (key : Key)
    (hfind : (address.findKey catalog.names).1 = .ok (some key)) (bytes : Bytes) (record : Record)
    (hrow : catalog.rows.get? key.encode = some bytes) (hread : Record.read bytes = .ok record) :
    let whole := catalog.delete address true
    let alone := catalog.delete address false
    let populated := ∃ lower, key.Beneath lower ∧ catalog.rows.get? lower.encode ≠ none
    (whole.1 = .ok true ∧ LosesSubtree key catalog.rows whole.2.rows) ∧
    (∀ other, ¬ Layout.IsEntity other → whole.2.rows.get? other = catalog.rows.get? other) ∧
    (alone.1 = .error (.hasSubEntities address.path) ↔ populated) ∧
    (populated → alone.2.rows = catalog.rows) ∧
    (¬ populated → alone.1 = .ok true ∧ ∀ other, alone.2.rows.get? other =
      if other = key.encode then none else catalog.rows.get? other) := by
  intro whole alone populated
  have hshaped := Address.shaped_of_findKey hfind
  obtain ⟨-, ids, hids, -⟩ := id hshaped
  obtain rfl : key = ⟨address.kind, ids, false⟩ := by rw [hids, Address.keyOf, hconcrete]
  have hload := load_of_found hfind hrow hread
  have hlooks := hasBeneath_iff_exists hkeys address.kind ids
  have hloses := losesSubtree_removal hkeys address.kind ids
  have hwhole := delete_of_loaded true hconcrete hload
  have halone := delete_of_loaded false hconcrete hload
  rw [if_neg (by simp)] at hwhole
  have hwholeLoses : LosesSubtree ⟨address.kind, ids, false⟩ catalog.rows whole.2.rows := by
    rw [show whole.2.rows = _ from hwhole.2]
    exact hloses
  refine ⟨⟨hwhole.1, hwholeLoses⟩, fun other hother => ?_, ?_⟩
  · refine hwholeLoses.others other (fun heq => hother ?_) fun lower hlower heq => hother ?_
    · exact hshaped.isEntity (heq ▸ List.prefix_refl _)
    · exact heq ▸ hlower.isEntity
  by_cases hpopulated : populated
  · rw [if_pos ⟨rfl, hlooks.mpr hpopulated⟩] at halone
    exact ⟨⟨fun _ => hpopulated, fun _ => halone.1⟩, fun _ => halone.2, fun h => absurd hpopulated h⟩
  · rw [if_neg fun h => hpopulated (hlooks.mp h.2)] at halone
    refine ⟨⟨fun h => absurd (halone.1.symm.trans h) (by simp), fun h => absurd h hpopulated⟩,
      fun h => absurd h hpopulated, fun _ => ⟨halone.1, fun other => ?_⟩⟩
    rw [show alone.2.rows = _ from halone.2]
    exact hloses.get?_of_bare hpopulated other

/-- The key of a metalake. -/
def lakeKey : Key := ⟨.metalake, [1], false⟩

/-- The key of a table in that metalake, with a separator in every byte of one id and ones in every bit
of another. -/
def oddTableKey : Key := ⟨.table, [1, 0x2f2f2f2f2f2f2f2f, 0xffffffffffffffff, 7], false⟩

/-- The key of a role in another metalake. -/
def otherRoleKey : Key := ⟨.role, [2, 1], false⟩

/-- A catalog over rows that no operation would leave: only the metalake has a name and a record. -/
def seeded : Catalog :=
  let rows := Names.withBinding .empty (scopedName [] .metalake "m") 1
  let rows := rows.insert lakeKey.encode (Record.encode ⟨5, []⟩)
  let rows := (rows.insert oddTableKey.encode []).insert otherRoleKey.encode []
  ⟨⟨rows, .create 8 .endless, .countingFrom 2⟩, .create ⟨0, 0, 0⟩, .constant 0, 0⟩

/-- Removing a metalake over rows that no operation would leave takes what lies beneath it and nothing
else. -/
theorem delete_subtree_seeded :
    seeded.rows.WellKeyed ∧ lakeKey.Beneath oddTableKey ∧
      ((seeded.delete ⟨.root "m", .metalake⟩ true).1 = .ok true ∧
        (seeded.delete ⟨.root "m", .metalake⟩ true).2.rows.get? oddTableKey.encode = none ∧
        (seeded.delete ⟨.root "m", .metalake⟩ true).2.rows.get? otherRoleKey.encode = some []) ∧
      (seeded.delete ⟨.root "m", .metalake⟩ false).1 = .error (.hasSubEntities (.root "m")) := by
  have hbooks : Rows.WellKeyed (Names.withBinding .empty (scopedName [] .metalake "m") 1) := by
    intro other hentity hother
    have hthird := Layout.getElem?_of_isEntity hentity
    rw [Names.get?_withBinding] at hother
    split at hother
    · rename_i heq
      rw [← heq, Layout.idKey_getElem?] at hthird
      exact absurd hthird (by decide)
    · split at hother
      · rename_i heq
        rw [← heq, Layout.nameKey_getElem?] at hthird
        exact absurd hthird (by decide)
      · exact absurd (Rows.get?_empty other) hother
  have hlake : lakeKey.Concrete := ⟨Key.decode_encode _ 0 rfl rfl, rfl⟩
  have htable : oddTableKey.Concrete := ⟨Key.decode_encode _ 3 rfl rfl, rfl⟩
  have hrole : otherRoleKey.Concrete := ⟨Key.decode_encode _ 1 rfl rfl, rfl⟩
  have hkeys : seeded.rows.WellKeyed :=
    ((hbooks.insert hlake _).insert htable _).insert hrole _
  have hbeneath : lakeKey.Beneath oddTableKey :=
    ⟨⟨0, [.metalake, .catalog, .schema], rfl, rfl, rfl⟩, rfl, by decide, by decide⟩
  have hapart : ¬ lakeKey.Beneath otherRoleKey := fun h => absurd h.ids (by decide)
  obtain ⟨⟨hwhole, hloses⟩, -, hrefused, -⟩ :=
    delete_subtree seeded hkeys ⟨.root "m", .metalake⟩ (by decide) lakeKey (by rfl)
      (Record.encode ⟨5, []⟩) ⟨5, []⟩ (by rfl) (by rfl)
  refine ⟨hkeys, hbeneath, ⟨hwhole, hloses.beneath _ hbeneath, ?_⟩, hrefused.mpr ?_⟩
  · rw [hloses.others _ ?_ fun lower hlower heq => ?_]
    · rfl
    · decide
    · obtain rfl := Key.encode_injective heq
      exact hapart hlower
  · exact ⟨oddTableKey, hbeneath, by decide⟩

end Catalog

end EntityCatalog
