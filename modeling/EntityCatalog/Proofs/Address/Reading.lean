import EntityCatalog.Proofs.Address.Lookup

/-!
# Which bytes read as an address

Nothing is asked here of the rows: the id rows may hold any bytes at all. Bytes read as an address
exactly when they are those of a complete key, one with as many ids as the levels of its kind ask for,
and the id row of each id holds a name that is scoped by the ids before it. The bytes then leave one
choice of the key, and the rows one choice of the names.

All other bytes are refused, each for one of three reasons: they start with the code of a kind that has
no keys, the reading came to an id row that is no text, or the key is corrupt.
-/

namespace EntityCatalog

/-- Only columns and audit entries have no place in the hierarchy. -/
theorem Kind.depth_eq_none_iff (kind : Kind) : kind.depth = none ↔ kind = .column ∨ kind = .audit := by
  cases kind <;> decide

/-- A key with as many ids as the levels of its kind ask for. -/
structure Key.Complete (key : Key) (levels : List Kind) : Prop where
  ancestors : key.kind.ancestors = some levels
  count : key.ids.length = if key.wildcard then levels.length else levels.length + 1

/-- The keys that bytes are read as are complete. -/
theorem Key.decode_eq_ok_iff_complete (bytes : Bytes) (key : Key) :
    decode bytes = .ok key ↔ bytes = key.encode ∧ ∃ levels, key.Complete levels := by
  rw [decode_eq_ok_iff]
  refine and_congr_right fun _ => ⟨?_, ?_⟩
  · rintro ⟨depth, hdepth, hcount⟩
    obtain ⟨levels, hlevels, rfl⟩ := Option.map_eq_some_iff.mp hdepth
    exact ⟨levels, hlevels, hcount⟩
  · rintro ⟨levels, hlevels, hcount⟩
    exact ⟨levels.length, by rw [Kind.depth, hlevels, Option.map_some], hcount⟩

namespace Address

variable {rows : Rows} {leaf : Kind}

/-! ## Ids and the names in their rows -/

/-- The id rows of ids in turn hold the names, each scoped by the ids before it. The kinds are those of
the levels; ids beyond them are of the kind `leaf`. -/
structure Spelled (rows : Rows) (leaf : Kind) (above : List UInt64) (kinds : List Kind)
    (ids : List UInt64) (names : List String) : Prop where
  length : names.length = ids.length
  row : ∀ depth id name, ids[depth]? = some id → names[depth]? = some name →
    rows.get? (Layout.idKey id) =
      some (Text.utf8 (scopedName (above ++ ids.take depth) (kinds.getD depth leaf) name))

/-- An id row that is there and holds no text. -/
def Smudged (rows : Rows) (id : UInt64) : Prop :=
  ∃ bytes, rows.get? (Layout.idKey id) = some bytes ∧ ∀ text, bytes ≠ Text.utf8 text

/-- Without ids nothing is spelled but the empty list of names. -/
theorem spelled_nil_iff {above : List UInt64} {kinds : List Kind} {names : List String} :
    Spelled rows leaf above kinds [] names ↔ names = [] :=
  ⟨fun h => List.eq_nil_of_length_eq_zero h.length, fun h => by
    rw [h]
    exact ⟨rfl, fun _ _ _ hid => absurd hid (by simp)⟩⟩

/-- Ids spell names when the first id row holds the first name and the other ids spell the rest. -/
theorem spelled_cons_iff {above : List UInt64} {kinds : List Kind} {id : UInt64} {ids : List UInt64}
    {name : String} {names : List String} :
    Spelled rows leaf above kinds (id :: ids) (name :: names) ↔
      rows.get? (Layout.idKey id) = some (Text.utf8 (scopedName above (kinds.headD leaf) name)) ∧
        Spelled rows leaf (above ++ [id]) kinds.tail ids names := by
  have hhead : kinds.getD 0 leaf = kinds.headD leaf := by cases kinds <;> rfl
  have htail (depth : Nat) : kinds.getD (depth + 1) leaf = kinds.tail.getD depth leaf := by
    cases kinds <;> simp
  constructor
  · intro h
    refine ⟨?_, Nat.succ.inj h.length, fun depth id' name' hid hname => ?_⟩
    · have hrow := h.row 0 id name rfl rfl
      rwa [List.take_zero, List.append_nil, hhead] at hrow
    · have hrow := h.row (depth + 1) id' name' hid hname
      rwa [List.take_succ_cons, List.append_cons, htail] at hrow
  · rintro ⟨hfirst, hrest⟩
    refine ⟨congrArg Nat.succ hrest.length, fun depth id' name' hid hname => ?_⟩
    cases depth with
    | zero =>
      obtain rfl := Option.some.inj hid
      obtain rfl := Option.some.inj hname
      rw [List.take_zero, List.append_nil, hhead]
      exact hfirst
    | succ depth =>
      rw [List.take_succ_cons, List.append_cons, htail]
      exact hrest.row depth id' name' hid hname

/-- Ids spell one list of names only. -/
theorem Spelled.names_unique {above : List UInt64} {kinds : List Kind} {ids : List UInt64}
    {names names' : List String} (h : Spelled rows leaf above kinds ids names)
    (h' : Spelled rows leaf above kinds ids names') : names = names' := by
  refine List.ext_getElem (h.length.trans h'.length.symm) fun depth hdepth hdepth' => ?_
  obtain ⟨id, hid⟩ : ∃ id, ids[depth]? = some id :=
    ⟨_, List.getElem?_eq_getElem (h.length ▸ hdepth)⟩
  have hrow := h.row depth id _ hid (List.getElem?_eq_getElem hdepth)
  have hrow' := h'.row depth id _ hid (List.getElem?_eq_getElem hdepth')
  rw [hrow] at hrow'
  exact (scopedName_injective (Text.utf8_injective (Option.some.inj hrow'))).2.2

/-- The name that an id stands for within a scope is the one that its row holds. -/
theorem nameOf_eq_ok_iff (rows : Rows) (above : List UInt64) (kind : Kind) (id : UInt64)
    (name : String) :
    nameOf rows above kind id = .ok name ↔
      rows.get? (Layout.idKey id) = some (Text.utf8 (scopedName above kind name)) := by
  constructor
  · intro h
    have hstored := storedName?_of_nameOf h
    rw [Names.storedName?] at hstored
    split at hstored
    · exact absurd hstored (by simp)
    · rename_i bytes hrow
      split at hstored
      · rename_i text htext
        obtain rfl := Option.some.inj (Except.ok.inj hstored)
        rw [hrow, (Text.ofUtf8?_eq_some_iff _ _).mp htext]
      · exact absurd hstored (by simp)
  · intro h
    simp [nameOf, Names.storedName?, h]

/-- No name is found for an id when its row is no text, or when the key is corrupt: the id has no row
or a row with a name of another scope. -/
theorem nameOf_error {above : List UInt64} {kind : Kind} {id : UInt64} {error : Error}
    (h : nameOf rows above kind id = .error error) :
    (∃ fault, error = .corruptKey fault) ∨
      Smudged rows id ∧ error = .corruptValue (.nameNotText id) := by
  rw [nameOf, Names.storedName?] at h
  cases hrow : rows.get? (Layout.idKey id) with
  | none =>
    rw [hrow] at h
    exact Or.inl ⟨_, (Except.error.inj h).symm⟩
  | some bytes =>
    rw [hrow] at h
    cases htext : Text.ofUtf8? bytes with
    | none =>
      refine Or.inr ⟨⟨bytes, hrow, ?_⟩, ?_⟩
      · rintro text rfl
        rw [Text.ofUtf8?_utf8] at htext
        exact absurd htext (by simp)
      · simp only [htext] at h
        exact (Except.error.inj h).symm
    | some full =>
      simp only [htext] at h
      split at h
      · exact absurd h (by simp)
      · exact Or.inl ⟨_, (Except.error.inj h).symm⟩

/-- An id whose row is no text has no name, and the row is to blame. -/
theorem nameOf_of_smudged {id : UInt64} (h : Smudged rows id) (above : List UInt64) (kind : Kind) :
    nameOf rows above kind id = .error (.corruptValue (.nameNotText id)) := by
  obtain ⟨bytes, hrow, hbytes⟩ := h
  have htext : Text.ofUtf8? bytes = none :=
    Option.eq_none_iff_forall_ne_some.mpr fun text htext =>
      hbytes text ((Text.ofUtf8?_eq_some_iff bytes text).mp htext)
  simp only [nameOf, Names.storedName?, hrow, htext]

/-- The names that ids stand for are those that they spell. -/
theorem namesOf_eq_ok_iff (rows : Rows) (leaf : Kind) (above : List UInt64) (kinds : List Kind)
    (ids : List UInt64) (names : List String) :
    namesOf rows leaf above kinds ids = .ok names ↔ Spelled rows leaf above kinds ids names := by
  induction ids generalizing above kinds names with
  | nil =>
    rw [namesOf, spelled_nil_iff]
    exact ⟨fun h => (Except.ok.inj h).symm, fun h => congrArg Except.ok h.symm⟩
  | cons id rest ih =>
    cases names with
    | nil =>
      refine ⟨fun h => ?_, fun h => absurd h.length (by simp)⟩
      rw [namesOf] at h
      split at h
      · exact absurd h (by simp)
      · split at h
        · exact absurd h (by simp)
        · exact absurd (Except.ok.inj h) (by simp)
    | cons name more =>
      rw [spelled_cons_iff, ← nameOf_eq_ok_iff, ← ih, namesOf]
      cases nameOf rows above (kinds.headD leaf) id with
      | error fault => simp
      | ok first =>
        cases namesOf rows leaf (above ++ [id]) kinds.tail rest <;> simp

/-- No names are found for ids when the key is corrupt, or when the first ids spell names and the row
of the next is no text. -/
theorem namesOf_error {above : List UInt64} {kinds : List Kind} {ids : List UInt64} {error : Error}
    (h : namesOf rows leaf above kinds ids = .error error) :
    (∃ fault, error = .corruptKey fault) ∨
      ∃ first id rest names, ids = first ++ id :: rest ∧
        Spelled rows leaf above kinds first names ∧ Smudged rows id ∧
        error = .corruptValue (.nameNotText id) := by
  induction ids generalizing above kinds with
  | nil => exact absurd h (by simp [namesOf])
  | cons id rest ih =>
    rw [namesOf] at h
    cases hname : nameOf rows above (kinds.headD leaf) id with
    | error fault =>
      rw [hname] at h
      obtain rfl := Except.error.inj h
      refine (nameOf_error hname).imp_right fun hsmudged => ?_
      exact ⟨[], id, rest, [], rfl, spelled_nil_iff.mpr rfl, hsmudged⟩
    | ok name =>
      rw [hname] at h
      cases hrest : namesOf rows leaf (above ++ [id]) kinds.tail rest with
      | ok names =>
        rw [hrest] at h
        exact absurd h (by simp)
      | error fault =>
        rw [hrest] at h
        obtain rfl := Except.error.inj h
        -- The id to blame is among the rest, and the first one joins those before it.
        refine (ih hrest).imp_right ?_
        rintro ⟨first, id', rest', names, rfl, hspelled, hsmudged⟩
        have hrow := (nameOf_eq_ok_iff rows above _ id name).mp hname
        exact ⟨id :: first, id', rest', name :: names, rfl, spelled_cons_iff.mpr ⟨hrow, hspelled⟩,
          hsmudged⟩

/-- The first id row that is no text is to blame when the ids before it spell names. -/
theorem namesOf_of_smudged {above : List UInt64} {kinds : List Kind} {first : List UInt64}
    {id : UInt64} {names : List String} (hfirst : Spelled rows leaf above kinds first names)
    (hid : Smudged rows id) (rest : List UInt64) :
    namesOf rows leaf above kinds (first ++ id :: rest) = .error (.corruptValue (.nameNotText id)) := by
  induction first generalizing above kinds names with
  | nil => rw [List.nil_append, namesOf, nameOf_of_smudged hid]
  | cons id' more ih =>
    cases names with
    | nil => exact absurd hfirst.length (by simp)
    | cons name names =>
      obtain ⟨hrow, hmore⟩ := spelled_cons_iff.mp hfirst
      rw [List.cons_append, namesOf, (nameOf_eq_ok_iff rows above _ id' name).mpr hrow]
      simp only [ih hmore]

/-! ## Bytes -/

/-- The bytes are those of a complete key, and its ids spell the names. -/
structure Legible (rows : Rows) (bytes : Bytes) (key : Key) (names : List String) : Prop where
  bytes : bytes = key.encode
  spelled : ∃ levels, key.Complete levels ∧ Spelled rows key.kind [] levels key.ids names

/-- The bytes are those of a complete key, and the row of one of its ids is no text, while the ids
before it spell names. -/
def Blotted (rows : Rows) (bytes : Bytes) (id : UInt64) : Prop :=
  ∃ (key : Key) (levels : List Kind) (first rest : List UInt64) (names : List String),
    bytes = key.encode ∧ key.Complete levels ∧ key.ids = first ++ id :: rest ∧
      Spelled rows key.kind [] levels first names ∧ Smudged rows id

/-- The path with given names: a wildcard holds them in its levels, any other path in all of it. -/
theorem pathOf_eq_iff {wildcard : Bool} {names : List String} (hnames : wildcard = false → names ≠ [])
    (path : Path) :
    pathOf wildcard names = path ↔
      if wildcard then path.levels = names ∧ path.leaf = wildcardName else path.segments = names := by
  cases wildcard with
  | true =>
    obtain ⟨levels, leaf⟩ := path
    simp [pathOf, Path.wildcard, eq_comm]
  | false =>
    simp only [pathOf, Bool.false_eq_true, if_false]
    constructor
    · rintro rfl
      exact Path.segments_ofSegments (hnames rfl)
    · rintro rfl
      exact Path.ofSegments_segments path

namespace Legible

variable {bytes : Bytes} {key key' : Key} {names names' : List String}

/-- Bytes that are legible read as the address with the names that are spelled. -/
theorem read_eq (h : Legible rows bytes key names) :
    read rows bytes = .ok ⟨pathOf key.wildcard names, key.kind⟩ := by
  obtain ⟨rfl, levels, hkey, hspelled⟩ := h
  rw [read_encode rows hkey.ancestors hkey.count, (namesOf_eq_ok_iff rows _ _ _ _ _).mpr hspelled]
  rfl

/-- The names that are spelled, as the parts of an address. -/
theorem address_eq_iff (h : Legible rows bytes key names) (address : Address) :
    ⟨pathOf key.wildcard names, key.kind⟩ = address ↔ address.kind = key.kind ∧
      if key.wildcard then address.path.levels = names ∧ address.path.leaf = wildcardName
      else address.path.segments = names := by
  obtain ⟨-, levels, hkey, hspelled⟩ := h
  obtain ⟨path, kind⟩ := address
  rw [Address.mk.injEq, and_comm, eq_comm (a := key.kind)]
  refine and_congr_right fun _ => pathOf_eq_iff (fun hconcrete hnil => ?_) path
  have hlength := hspelled.length
  rw [hkey.count, hconcrete, hnil] at hlength
  exact absurd hlength (by simp)

/-- The bytes leave one choice of the key and the rows one choice of the names. -/
theorem unique (h : Legible rows bytes key names) (h' : Legible rows bytes key' names') :
    key = key' ∧ names = names' := by
  obtain ⟨rfl, levels, hkey, hspelled⟩ := h
  obtain ⟨hbytes, levels', hkey', hspelled'⟩ := h'
  obtain rfl := Key.encode_injective hbytes
  obtain rfl : levels = levels' := Option.some.inj (hkey.ancestors.symm.trans hkey'.ancestors)
  exact ⟨rfl, hspelled.names_unique hspelled'⟩

end Legible

/-- What bytes read as is the address with the names that their ids spell. -/
theorem read_eq_ok_iff (rows : Rows) (bytes : Bytes) (address : Address) :
    read rows bytes = .ok address ↔ ∃ key names, Legible rows bytes key names ∧
      address.kind = key.kind ∧
        if key.wildcard then address.path.levels = names ∧ address.path.leaf = wildcardName
        else address.path.segments = names := by
  constructor
  · intro h
    cases hdecode : Key.decode bytes with
    | error fault =>
      rw [read, hdecode] at h
      exact absurd h (by simp)
    | ok key =>
      obtain ⟨rfl, levels, hkey⟩ := (Key.decode_eq_ok_iff_complete bytes key).mp hdecode
      cases hnames : namesOf rows key.kind [] levels key.ids with
      | error fault =>
        rw [read_encode rows hkey.ancestors hkey.count, hnames] at h
        exact absurd h (by simp [Except.map])
      | ok names =>
        have hlegible : Legible rows key.encode key names :=
          ⟨rfl, levels, hkey, (namesOf_eq_ok_iff rows _ _ _ _ _).mp hnames⟩
        rw [hlegible.read_eq] at h
        exact ⟨key, names, hlegible, (hlegible.address_eq_iff address).mp (Except.ok.inj h)⟩
  · rintro ⟨key, names, hlegible, haddress⟩
    rw [hlegible.read_eq, (hlegible.address_eq_iff address).mpr haddress]

/-- Why bytes do not read as an address. -/
theorem read_error {bytes : Bytes} {error : Error} (h : read rows bytes = .error error) :
    (∃ fault, error = .corruptKey fault) ∨
      (∃ kind, kind.depth = none ∧ bytes.take Key.codeWidth = kind.code ∧
        error = .unsupportedKind kind) ∨
      ∃ id, Blotted rows bytes id ∧ error = .corruptValue (.nameNotText id) := by
  cases hdecode : Key.decode bytes with
  | error fault =>
    simp only [read, hdecode] at h
    obtain rfl := Except.error.inj h
    exact (Key.error_of_decode hdecode).imp_right Or.inl
  | ok key =>
    obtain ⟨hbytes, levels, hkey⟩ := (Key.decode_eq_ok_iff_complete bytes key).mp hdecode
    rw [hbytes, read_encode rows hkey.ancestors hkey.count] at h
    cases hnames : namesOf rows key.kind [] levels key.ids with
    | ok names =>
      rw [hnames] at h
      exact absurd h (by simp [Except.map])
    | error fault =>
      rw [hnames] at h
      obtain rfl := Except.error.inj h
      refine (namesOf_error hnames).imp_right fun hblot => Or.inr ?_
      obtain ⟨first, id, rest, names, hids, hspelled, hsmudged, rfl⟩ := hblot
      exact ⟨id, ⟨key, levels, first, rest, names, hbytes, hkey, hids, hspelled, hsmudged⟩, rfl⟩

/-- A kind without keys is named as the fault of exactly the bytes that start with its code. -/
theorem read_eq_unsupportedKind_iff (rows : Rows) (bytes : Bytes) (kind : Kind) :
    read rows bytes = .error (.unsupportedKind kind) ↔
      (kind = .column ∨ kind = .audit) ∧ bytes.take Key.codeWidth = kind.code := by
  rw [← Kind.depth_eq_none_iff, ← Key.decode_eq_unsupportedKind_iff]
  constructor
  · intro h
    rcases read_error h with ⟨fault, heq⟩ | ⟨kind', hdepth, hcode, heq⟩ | ⟨id, -, heq⟩
    · exact absurd heq (by simp)
    · obtain rfl := Error.unsupportedKind.inj heq
      exact (Key.decode_eq_unsupportedKind_iff bytes kind).mpr ⟨hdepth, hcode⟩
    · exact absurd heq (by simp)
  · intro h
    rw [read, h]

/-- A value is to blame exactly when it is the id row at which the reading came to no text. -/
theorem read_eq_corruptValue_iff (rows : Rows) (bytes : Bytes) (fault : ValueFault) :
    read rows bytes = .error (.corruptValue fault) ↔
      ∃ id, Blotted rows bytes id ∧ fault = .nameNotText id := by
  constructor
  · intro h
    rcases read_error h with ⟨fault', heq⟩ | ⟨kind', -, -, heq⟩ | ⟨id, hblot, heq⟩
    · exact absurd heq (by simp)
    · exact absurd heq (by simp)
    · exact ⟨id, hblot, Error.corruptValue.inj heq⟩
  · rintro ⟨id, ⟨key, levels, first, rest, names, rfl, hkey, hids, hspelled, hsmudged⟩, rfl⟩
    rw [read_encode rows hkey.ancestors hkey.count, hids, namesOf_of_smudged hspelled hsmudged]
    rfl

/-- Bytes read as an address exactly when they are those of a complete key whose ids spell the names of
the address, and they are those of one key and one list of names only. All other bytes are refused. The
kind is to blame exactly when they start with the code of one without keys, a value exactly when it is
an id row that was reached and is no text, and the key in all other cases. -/
theorem read_accepts_legible (rows : Rows) (bytes : Bytes) :
    (∀ address, read rows bytes = .ok address ↔ ∃ key names, Legible rows bytes key names ∧
      address.kind = key.kind ∧
        if key.wildcard then address.path.levels = names ∧ address.path.leaf = wildcardName
        else address.path.segments = names) ∧
    (∀ key key' names names', Legible rows bytes key names → Legible rows bytes key' names' →
      key = key' ∧ names = names') ∧
    (∀ kind, read rows bytes = .error (.unsupportedKind kind) ↔
      (kind = .column ∨ kind = .audit) ∧ bytes.take Key.codeWidth = kind.code) ∧
    (∀ fault, read rows bytes = .error (.corruptValue fault) ↔
      ∃ id, Blotted rows bytes id ∧ fault = .nameNotText id) ∧
    ((∃ fault, read rows bytes = .error (.corruptKey fault)) ↔
      (∀ key names, ¬ Legible rows bytes key names) ∧
        (∀ kind : Kind, kind = .column ∨ kind = .audit → bytes.take Key.codeWidth ≠ kind.code) ∧
          ∀ id, ¬ Blotted rows bytes id) := by
  refine ⟨read_eq_ok_iff rows bytes, fun key key' names names' h h' => h.unique h',
    read_eq_unsupportedKind_iff rows bytes, read_eq_corruptValue_iff rows bytes, ?_, ?_⟩
  · rintro ⟨fault, hfault⟩
    refine ⟨fun key names hlegible => ?_, fun kind hkind hcode => ?_, fun id hblot => ?_⟩
    · rw [hlegible.read_eq] at hfault
      exact absurd hfault (by simp)
    · rw [(read_eq_unsupportedKind_iff rows bytes kind).mpr ⟨hkind, hcode⟩] at hfault
      exact absurd hfault (by simp)
    · rw [(read_eq_corruptValue_iff rows bytes _).mpr ⟨id, hblot, rfl⟩] at hfault
      exact absurd hfault (by simp)
  · rintro ⟨hlegible, hkind, hblot⟩
    cases hread : read rows bytes with
    | ok address =>
      obtain ⟨key, names, hsome, -⟩ := (read_eq_ok_iff rows bytes address).mp hread
      exact absurd hsome (hlegible key names)
    | error error =>
      rcases read_error hread with ⟨fault, rfl⟩ | ⟨kind, hdepth, hcode, rfl⟩ | ⟨id, hsome, -⟩
      · exact ⟨fault, rfl⟩
      · exact absurd hcode (hkind kind ((Kind.depth_eq_none_iff kind).mp hdepth))
      · exact absurd hsome (hblot id)

/-- The id rows of a metalake, of which the id is the separator over and over, and of something that
is no text. -/
def smudgedRows : Rows :=
  .ofList [(Layout.idKey 0x2f2f2f2f2f2f2f2f, Text.utf8 "ml:m"), (Layout.idKey 7, [0xff])]

/-- A key is read although rows that it does not name are smudged, and a key that names one is not. -/
theorem read_accepts_legible_smudgedRows :
    Legible smudgedRows (Key.encode ⟨.catalog, [0x2f2f2f2f2f2f2f2f], true⟩)
        ⟨.catalog, [0x2f2f2f2f2f2f2f2f], true⟩ ["m"] ∧
      read smudgedRows (Key.encode ⟨.catalog, [0x2f2f2f2f2f2f2f2f], true⟩) =
        .ok ⟨.wildcard ["m"], .catalog⟩ ∧
      read smudgedRows (Key.encode ⟨.catalog, [0x2f2f2f2f2f2f2f2f, 7], false⟩) =
        .error (.corruptValue (.nameNotText 7)) := by
  have hspelled :
      Spelled smudgedRows .catalog [] [.metalake] [0x2f2f2f2f2f2f2f2f] ["m"] :=
    spelled_cons_iff.mpr ⟨by decide, spelled_nil_iff.mpr rfl⟩
  have hlegible : Legible smudgedRows (Key.encode ⟨.catalog, [0x2f2f2f2f2f2f2f2f], true⟩)
      ⟨.catalog, [0x2f2f2f2f2f2f2f2f], true⟩ ["m"] := ⟨rfl, [.metalake], ⟨rfl, rfl⟩, hspelled⟩
  have hsmudged : Smudged smudgedRows 7 := by
    refine ⟨[0xff], by decide, fun text heq => ?_⟩
    have hnone : Text.ofUtf8? [0xff] = none := by decide
    rw [heq, Text.ofUtf8?_utf8] at hnone
    exact absurd hnone (by simp)
  obtain ⟨hread, -⟩ :=
    read_accepts_legible smudgedRows (Key.encode ⟨.catalog, [0x2f2f2f2f2f2f2f2f], true⟩)
  obtain ⟨-, -, -, hvalue, -⟩ :=
    read_accepts_legible smudgedRows (Key.encode ⟨.catalog, [0x2f2f2f2f2f2f2f2f, 7], false⟩)
  refine ⟨hlegible, (hread _).mpr ⟨_, _, hlegible, rfl, rfl, rfl⟩, (hvalue _).mpr ⟨7, ?_, rfl⟩⟩
  exact ⟨_, [.metalake], [0x2f2f2f2f2f2f2f2f], [], ["m"], rfl, ⟨rfl, rfl⟩, rfl, hspelled, hsmudged⟩

end Address

end EntityCatalog
