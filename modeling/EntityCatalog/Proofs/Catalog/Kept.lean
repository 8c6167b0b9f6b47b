import EntityCatalog.Catalog.Basic
import EntityCatalog.Proofs.Address.Lookup
import EntityCatalog.Proofs.Record
import EntityCatalog.Proofs.Rows.Stem

/-!
# Well-kept rows

The rows that a catalog keeps are consistent, and every row is accounted for: it is the mark row, a
name row, an id row, or the row of an entity whose key is the stored key of its address. The last
case says that no entity is stranded under ids that its path no longer leads to.

The contents of rows are the records at the addresses. Of well-kept rows they are told by the entity
rows, so they do not change as long as those rows stay and all names keep their ids.
-/

namespace EntityCatalog

/-- What a row of a catalog may be. -/
inductive Accounted (rows : Rows) : Bytes → Bytes → Prop where
  | mark (mark : UInt64) : Accounted rows Layout.markKey (wordBytes mark)
  | name (name : String) (id : UInt64) : Accounted rows (Layout.nameKey name) (wordBytes id)
  | id (id : UInt64) (name : String) : Accounted rows (Layout.idKey id) (Text.utf8 name)
  | entity (address : Address) (key : Key) (record : Record)
      (hkey : address.storedKey? rows = some key) (hconcrete : key.wildcard = false)
      (hfits : record.payload.Fits) : Accounted rows key.encode record.encode

/-- A row stays accounted for as long as all names keep their ids. -/
theorem Accounted.mono {rows rows' : Rows} {key bytes : Bytes} (h : Accounted rows key bytes)
    (hnames : ∀ name id, Names.boundId? rows name = some id → Names.boundId? rows' name = some id) :
    Accounted rows' key bytes := by
  cases h with
  | mark mark => exact .mark mark
  | name name id => exact .name name id
  | id id name => exact .id id name
  | entity address key record hkey hconcrete hfits =>
    exact .entity address key record (Address.storedKey?_mono hnames hkey) hconcrete hfits

/-- Rows that are consistent and all accounted for. -/
structure Kept (rows : Rows) : Prop where
  consistent : Names.Consistent rows
  accounted : ∀ key bytes, rows.get? key = some bytes → Accounted rows key bytes

/-- The record at an address, if there is an entity. -/
def Address.record? (rows : Rows) (address : Address) : Option Record :=
  (address.storedKey? rows).bind fun key => (rows.get? key.encode).bind Record.decode?

namespace Kept

variable {rows rows' : Rows}

/-- No rows are well kept. -/
theorem empty : Kept Rows.empty :=
  ⟨.empty, fun key bytes h => absurd h (by simp)⟩

/-- An entity row holds the record of an entity under the stored key of its address. -/
theorem entity (h : Kept rows) {key : Key} {bytes : Bytes}
    (hrow : rows.get? key.encode = some bytes) :
    key.wildcard = false ∧ ∃ (address : Address) (record : Record),
      address.storedKey? rows = some key ∧ record.payload.Fits ∧ bytes = record.encode := by
  have haccounted := h.accounted key.encode bytes hrow
  generalize hkey : key.encode = encoded at haccounted
  cases haccounted with
  | mark mark => exact absurd hkey (Layout.encode_ne_markKey key)
  | name name id => exact absurd hkey (Layout.encode_ne_nameKey key name)
  | id id name => exact absurd hkey (Layout.encode_ne_idKey key id)
  | entity address key' record hstored hconcrete hfits =>
    obtain rfl := Key.encode_injective hkey
    exact ⟨hconcrete, address, record, hstored, hfits, rfl⟩

/-- Rows stay well kept when names keep their ids and every new row is accounted for. -/
theorem of_accounted (h : Kept rows) (hrows : Names.Consistent rows')
    (hnames : ∀ name id, Names.boundId? rows name = some id → Names.boundId? rows' name = some id)
    (hnew : ∀ key bytes, rows'.get? key = some bytes →
      rows.get? key = some bytes ∨ Accounted rows' key bytes) : Kept rows' := by
  refine ⟨hrows, fun key bytes hrow => ?_⟩
  rcases hnew key bytes hrow with hold | haccounted
  · exact (h.accounted key bytes hold).mono hnames
  · exact haccounted

/-- Rows with the same books stay well kept when every new row is accounted for. -/
theorem of_same_books (h : Kept rows)
    (hnames : ∀ name, rows'.get? (Layout.nameKey name) = rows.get? (Layout.nameKey name))
    (hids : ∀ id, rows'.get? (Layout.idKey id) = rows.get? (Layout.idKey id))
    (hnew : ∀ key bytes, rows'.get? key = some bytes →
      rows.get? key = some bytes ∨ Accounted rows' key bytes) : Kept rows' :=
  h.of_accounted (h.consistent.congr hnames hids)
    (fun name _ hid => (Names.boundId?_congr (hnames name)).trans hid) hnew

/-- Binding free names keeps the rows well kept. -/
theorem grows (h : Kept rows) (hgrows : Names.Grows rows rows') : Kept rows' := by
  refine h.of_accounted (hgrows.consistent h.consistent) (fun _ _ => hgrows.boundId?_eq_some) ?_
  clear h
  induction hgrows with
  | refl => exact fun key bytes hrow => Or.inl hrow
  | @bind mid name id hmid hname hid ih =>
    intro key bytes hrow
    rw [Names.get?_withBinding] at hrow
    split at hrow
    · rename_i heq
      rw [← heq, ← Option.some.inj hrow]
      exact Or.inr (.id id name)
    · split at hrow
      · rename_i heq
        rw [← heq, ← Option.some.inj hrow]
        exact Or.inr (.name name id)
      · refine (ih key bytes hrow).imp_right fun haccounted => haccounted.mono fun _ _ => ?_
        exact (Names.Grows.refl.bind hname hid).boundId?_eq_some

/-- Writing the mark keeps the rows well kept. -/
theorem insertMark (h : Kept rows) (mark : UInt64) :
    Kept (rows.insert Layout.markKey (wordBytes mark)) := by
  refine h.of_same_books (fun name => ?_) (fun id => ?_) fun key bytes hrow => ?_
  · exact Rows.get?_insert_of_ne rows _ (Layout.nameKey_ne_markKey name).symm
  · exact Rows.get?_insert_of_ne rows _ (Layout.idKey_ne_markKey id).symm
  · rw [Rows.get?_insert] at hrow
    split at hrow
    · rename_i heq
      rw [← heq, ← Option.some.inj hrow]
      exact Or.inr (.mark mark)
    · exact Or.inl hrow

/-- The name rows are left alone when an entity is written. -/
theorem get?_insert_nameKey (rows : Rows) (key : Key) (value : Bytes) (name : String) :
    (rows.insert key.encode value).get? (Layout.nameKey name) = rows.get? (Layout.nameKey name) :=
  Rows.get?_insert_of_ne rows value (Layout.encode_ne_nameKey key name)

/-- Writing an entity under its stored key keeps the rows well kept. -/
theorem insertEntity (h : Kept rows) {address : Address} {key : Key} {record : Record}
    (hkey : address.storedKey? rows = some key) (hconcrete : key.wildcard = false)
    (hfits : record.payload.Fits) : Kept (rows.insert key.encode record.encode) := by
  have hnames := get?_insert_nameKey rows key record.encode
  refine h.of_same_books hnames (fun id => ?_) fun key' bytes hrow => ?_
  · exact Rows.get?_insert_of_ne rows _ (Layout.encode_ne_idKey key id)
  · rw [Rows.get?_insert] at hrow
    split at hrow
    · rename_i heq
      rw [← heq, ← Option.some.inj hrow]
      refine Or.inr (.entity address key record ?_ hconcrete hfits)
      rw [Address.storedKey?_congr hnames, hkey]
    · exact Or.inl hrow

/-! ## Contents -/

/-- An address has a record exactly when its stored key has the row of the record. -/
theorem record?_eq_some_iff (h : Kept rows) (address : Address) (record : Record) :
    address.record? rows = some record ↔
      ∃ key, address.storedKey? rows = some key ∧ key.wildcard = false ∧ record.payload.Fits ∧
        rows.get? key.encode = some record.encode := by
  rw [Address.record?, Option.bind_eq_some_iff]
  constructor
  · rintro ⟨key, hkey, hrecord⟩
    obtain ⟨bytes, hrow, hdecode⟩ := Option.bind_eq_some_iff.mp hrecord
    obtain ⟨hconcrete, -, record', -, hfits, rfl⟩ := h.entity hrow
    rw [Record.decode?_encode record' hfits] at hdecode
    obtain rfl := Option.some.inj hdecode
    exact ⟨key, hkey, hconcrete, hfits, hrow⟩
  · rintro ⟨key, hkey, -, hfits, hrow⟩
    exact ⟨key, hkey, by rw [hrow, Option.bind_some, Record.decode?_encode record hfits]⟩

/-- Only addresses that stand for one entity have records. -/
theorem single (h : Kept rows) {address : Address} {record : Record}
    (hrecord : address.record? rows = some record) : address.Single := by
  obtain ⟨key, hkey, hconcrete, -, -⟩ := (h.record?_eq_some_iff address record).mp hrecord
  exact Address.single_of_storedKey? hkey hconcrete

/-- The row under a stored key is that of the record at the address. -/
theorem get?_storedKey? (h : Kept rows) {address : Address} {key : Key}
    (hkey : address.storedKey? rows = some key) :
    rows.get? key.encode = (address.record? rows).map Record.encode := by
  cases hrow : rows.get? key.encode with
  | none => rw [Address.record?, hkey, Option.bind_some, hrow, Option.bind_none, Option.map_none]
  | some bytes =>
    obtain ⟨hconcrete, -, record, -, hfits, rfl⟩ := h.entity hrow
    rw [(h.record?_eq_some_iff address record).mpr ⟨key, hkey, hconcrete, hfits, hrow⟩,
      Option.map_some]

/-- The contents stay as long as names keep their ids and entities keep their rows. A name that was
free before leads to no entity, because that entity would have been stranded. -/
theorem record?_congr (h : Kept rows) (h' : Kept rows')
    (hnames : ∀ name id, Names.boundId? rows name = some id → Names.boundId? rows' name = some id)
    (hentities : ∀ key : Key, rows'.get? key.encode = rows.get? key.encode) (address : Address) :
    address.record? rows' = address.record? rows := by
  apply Option.ext
  intro record
  rw [h'.record?_eq_some_iff, h.record?_eq_some_iff]
  constructor
  · rintro ⟨key, hkey, hconcrete, hfits, hrow⟩
    rw [hentities] at hrow
    obtain ⟨-, address', -, hkey', -, -⟩ := h.entity hrow
    obtain rfl := Address.storedKey?_injective h'.consistent hconcrete hkey
      (Address.storedKey?_mono hnames hkey')
    exact ⟨key, hkey', hconcrete, hfits, hrow⟩
  · rintro ⟨key, hkey, hconcrete, hfits, hrow⟩
    exact ⟨key, Address.storedKey?_mono hnames hkey, hconcrete, hfits, (hentities key).trans hrow⟩

/-- Binding free names leaves the contents alone. -/
theorem record?_grows (h : Kept rows) (hgrows : Names.Grows rows rows') (address : Address) :
    address.record? rows' = address.record? rows :=
  h.record?_congr (h.grows hgrows) (fun _ _ => hgrows.boundId?_eq_some)
    (fun key => hgrows.get?_eq (fun name heq => Layout.encode_ne_nameKey key name heq.symm)
      fun id heq => Layout.encode_ne_idKey key id heq.symm) address

/-- Writing an entity changes the contents at its address alone. -/
theorem record?_insertEntity (h : Kept rows) {address : Address} {key : Key} {record : Record}
    (hkey : address.storedKey? rows = some key) (hconcrete : key.wildcard = false)
    (hfits : record.payload.Fits) (other : Address) :
    other.record? (rows.insert key.encode record.encode) =
      if other = address then some record else other.record? rows := by
  have hstored := Address.storedKey?_congr (get?_insert_nameKey rows key record.encode) other
  rw [Address.record?, hstored]
  split
  · rename_i heq
    rw [heq, hkey, Option.bind_some, Rows.get?_insert_self, Option.bind_some,
      Record.decode?_encode record hfits]
  · rename_i hne
    rw [Address.record?]
    cases hother : other.storedKey? rows with
    | none => rfl
    | some key' =>
      have hkeys : key.encode ≠ key'.encode := by
        intro heq
        obtain rfl := Key.encode_injective heq
        exact hne (Address.storedKey?_injective h.consistent hconcrete hother hkey)
      rw [Option.bind_some, Option.bind_some, Rows.get?_insert_of_ne rows _ hkeys]

end Kept

end EntityCatalog
