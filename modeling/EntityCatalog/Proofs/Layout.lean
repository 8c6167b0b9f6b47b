import EntityCatalog.Layout
import EntityCatalog.Proofs.Key.Codec
import EntityCatalog.Proofs.Text.Utf8

/-!
# The families of rows lie apart

The third byte of a key tells its family: it is the separator in the key of an entity, and a
letter or an underscore of its own in each of the other three families.
-/

namespace EntityCatalog

namespace Layout

/-- The third byte of the key of a name is an `m`, and not the separator that an entity has there. -/
theorem nameKey_getElem? (name : String) : (nameKey name)[Key.codeWidth]? = some 0x6d := rfl

/-- The third byte of the key of an id is a low line, and not the separator that an entity has there. -/
theorem idKey_getElem? (id : UInt64) : (idKey id)[Key.codeWidth]? = some 0x5f := rfl

/-- The third byte of the key of the mark is an `s`, and not the separator that an entity has there. -/
theorem markKey_getElem? : markKey[Key.codeWidth]? = some 0x73 := rfl

/-- Different names have different keys. -/
theorem nameKey_injective {a b : String} (h : nameKey a = nameKey b) : a = b :=
  Text.utf8_injective (List.append_cancel_left h)

/-- Another name has another name row. -/
theorem nameKey_ne {a b : String} (h : a ≠ b) : nameKey a ≠ nameKey b :=
  fun heq => h (nameKey_injective heq)

/-- Different ids have different keys. -/
theorem idKey_injective {a b : UInt64} (h : idKey a = idKey b) : a = b :=
  wordBytes_injective (List.append_cancel_left h)

/-- The key of a name is not that of an id. -/
theorem nameKey_ne_idKey (name : String) (id : UInt64) : nameKey name ≠ idKey id := by
  intro h
  have hmark := nameKey_getElem? name
  rw [h, idKey_getElem?] at hmark
  exact absurd hmark (by decide)

/-- The key of a name is not that of the mark. -/
theorem nameKey_ne_markKey (name : String) : nameKey name ≠ markKey := by
  intro h
  have hmark := nameKey_getElem? name
  rw [h, markKey_getElem?] at hmark
  exact absurd hmark (by decide)

/-- The key of an id is not that of the mark. -/
theorem idKey_ne_markKey (id : UInt64) : idKey id ≠ markKey := by
  intro h
  have hmark := idKey_getElem? id
  rw [h, markKey_getElem?] at hmark
  exact absurd hmark (by decide)

/-- A key with another third byte than the separator is no key of an entity. -/
theorem encode_ne_of_getElem? (key : Key) {other : Bytes} {b : UInt8}
    (h : other[Key.codeWidth]? = some b) (hb : b ≠ Key.separator) : key.encode ≠ other := by
  intro heq
  rcases key.encode_getElem?_codeWidth with hnone | hsome
  · rw [heq, h] at hnone
    exact absurd hnone (by simp)
  · rw [heq, h] at hsome
    exact hb (Option.some.inj hsome)

/-- The key of an entity is not that of a name. -/
theorem encode_ne_nameKey (key : Key) (name : String) : key.encode ≠ nameKey name :=
  encode_ne_of_getElem? key (nameKey_getElem? name) (by decide)

/-- The key of an entity is not that of an id. -/
theorem encode_ne_idKey (key : Key) (id : UInt64) : key.encode ≠ idKey id :=
  encode_ne_of_getElem? key (idKey_getElem? id) (by decide)

/-- The key of an entity is not that of the mark. -/
theorem encode_ne_markKey (key : Key) : key.encode ≠ markKey :=
  encode_ne_of_getElem? key markKey_getElem? (by decide)

/-- Every key that extends a wildcard key has a separator for its third byte. -/
theorem getElem?_codeWidth_of_stem {kind : Kind} {ids : List UInt64} {key : Bytes}
    (h : Key.encode ⟨kind, ids, true⟩ <+: key) : key[Key.codeWidth]? = some Key.separator := by
  have hcode : kind.code.length ≤ Key.codeWidth := Nat.le_refl _
  have hstem : (Key.encode ⟨kind, ids, true⟩)[Key.codeWidth]? = some Key.separator := by
    rw [Key.encode, List.getElem?_append_right hcode]
    cases ids <;> rfl
  obtain ⟨hlength, -⟩ := List.getElem?_eq_some_iff.mp hstem
  obtain ⟨rest, rfl⟩ := h
  rw [List.getElem?_append_left hlength, hstem]

/-- A key with another third byte than the separator extends no wildcard key. -/
theorem not_stem_prefix_of_getElem? {kind : Kind} {ids : List UInt64} {other : Bytes} {b : UInt8}
    (h : other[Key.codeWidth]? = some b) (hb : b ≠ Key.separator) :
    ¬ Key.encode ⟨kind, ids, true⟩ <+: other := by
  intro hstem
  rw [getElem?_codeWidth_of_stem hstem] at h
  exact hb (Option.some.inj h).symm

/-- Whether a key is one of an entity: it starts with the code of a kind that has keys and a
separator. -/
def IsEntity (key : Bytes) : Prop :=
  ∃ kind : Kind, kind.isEncodable = true ∧ Key.stemOf kind <+: key

/-- What extends the key of an entity is one as well. -/
theorem IsEntity.extend {key other : Bytes} (h : IsEntity key) (hother : key <+: other) :
    IsEntity other := by
  obtain ⟨kind, hkind, hstem⟩ := h
  exact ⟨kind, hkind, hstem.trans hother⟩

/-- The third byte of the key of an entity is the separator. -/
theorem getElem?_of_isEntity {key : Bytes} (h : IsEntity key) :
    key[Key.codeWidth]? = some Key.separator := by
  obtain ⟨kind, -, hstem⟩ := h
  have hwildcard : Key.encode ⟨kind, [], true⟩ <+: key := hstem
  exact getElem?_codeWidth_of_stem hwildcard

/-- What extends a wildcard key is the key of an entity. -/
theorem isEntity_of_stem {kind : Kind} {ids : List UInt64} {key : Bytes}
    (hkind : kind.isEncodable = true) (h : Key.encode ⟨kind, ids, true⟩ <+: key) : IsEntity key := by
  have hstem : Key.stemOf kind <+: Key.encode ⟨kind, ids, true⟩ := by
    refine (List.prefix_append_right_inj _).mpr ?_
    cases ids with
    | nil => exact List.prefix_refl _
    | cons id rest => simp [Key.segment]
  exact ⟨kind, hkind, hstem.trans h⟩

/-- A concrete key of a kind that has keys is the key of an entity. -/
theorem isEntity_encode {kind : Kind} {ids : List UInt64} (hkind : kind.isEncodable = true)
    (hids : ids ≠ []) : IsEntity (Key.encode ⟨kind, ids, false⟩) := by
  have hwildcard : Key.encode ⟨kind, [], true⟩ <+: Key.encode ⟨kind, ids, false⟩ :=
    (Key.wildcard_prefix_iff kind kind [] ids).mpr
      ⟨rfl, List.nil_prefix, List.length_pos_iff.mpr hids⟩
  exact isEntity_of_stem hkind hwildcard

end Layout

end EntityCatalog
