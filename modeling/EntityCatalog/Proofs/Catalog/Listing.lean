import EntityCatalog.Proofs.Catalog.Lookup
import EntityCatalog.Proofs.Key.Order
import Mathlib.Tactic.Choose

/-!
# Listing the direct children

The key of a wildcard is a stem of the keys of exactly the entities of its kind whose levels are its
own. In well-kept rows a list of entities therefore reads the rows of the direct children and no
others, and each of them reads as a path with its record. The rows come in the byte order of their
keys, which for children of one namespace is the numeric order of the ids of their own names.
-/

namespace EntityCatalog

/-- The keys of entities in one namespace are in the order of their own ids. -/
theorem Key.encode_concat_lt_iff (kind : Kind) (above : List UInt64) {a b : UInt64} :
    Key.encode ⟨kind, above ++ [a], false⟩ < Key.encode ⟨kind, above ++ [b], false⟩ ↔ a < b := by
  rw [encode_lt_encode_iff, append_lt_append_iff, List.cons_lt_cons_iff]
  simp

namespace Address

variable {rows : Rows}

/-- The wildcard of the namespace of an entity passes the checks. -/
theorem Single.wildcard_fitting {address : Address} (h : address.Single) :
    Fitting ⟨.wildcard address.path.levels, address.kind⟩ := by
  obtain ⟨hancestors, hlength, hall, -⟩ := (levels_eq_ok_iff address _).mp h.levels
  exact (levels_wildcard_eq_ok_iff _ _ _).mpr ⟨hancestors, hlength, List.all_eq_true.mp hall⟩

/-- The key of an entity goes on from that of the wildcard of its namespace by its own id. -/
theorem exists_wildcardKey {address : Address} {key : Key} (hkey : address.storedKey? rows = some key)
    (hconcrete : key.wildcard = false) :
    ∃ above id, storedKey? rows ⟨.wildcard address.path.levels, address.kind⟩ =
      some ⟨address.kind, above, true⟩ ∧ key = ⟨address.kind, above ++ [id], false⟩ := by
  have hsingle := single_of_storedKey? hkey hconcrete
  obtain ⟨ids, hids, rfl⟩ := (hsingle.storedKey?_eq_some_iff rows key).mp hkey
  rw [line, trail?_append, Option.bind_eq_some_iff] at hids
  obtain ⟨above, habove, hleaf⟩ := hids
  obtain ⟨id, -, hnil⟩ := (trail?_cons_eq_some_iff rows _ _ [] above ids).mp hleaf
  obtain rfl := Option.some.inj hnil
  exact ⟨above, id, (storedKey?_wildcard_eq_some_iff hsingle.wildcard_fitting above).mpr habove, rfl⟩

/-- The key of an entity directly below the levels of a wildcard. -/
theorem exists_ownId {levels : List String} {kind : Kind} {above : List UInt64}
    (habove : storedKey? rows ⟨.wildcard levels, kind⟩ = some ⟨kind, above, true⟩) {path : Path}
    {key : Key} (hlevels : path.levels = levels) (hkey : storedKey? rows ⟨path, kind⟩ = some key)
    (hconcrete : key.wildcard = false) : ∃ id, key = ⟨kind, above ++ [id], false⟩ := by
  obtain ⟨above', id, habove', rfl⟩ := exists_wildcardKey hkey hconcrete
  rw [hlevels, habove] at habove'
  obtain rfl : above = above' := congrArg Key.ids (Option.some.inj habove')
  exact ⟨id, rfl⟩

/-- The key of a wildcard is a stem of the keys of its kind with its levels, and of no others. -/
theorem wildcardKey_prefix_iff (hrows : Names.Consistent rows) {levels : List String} {kind : Kind}
    {above : List UInt64}
    (habove : storedKey? rows ⟨.wildcard levels, kind⟩ = some ⟨kind, above, true⟩)
    {address : Address} {key : Key} (hkey : address.storedKey? rows = some key)
    (hconcrete : key.wildcard = false) :
    Key.encode ⟨kind, above, true⟩ <+: key.encode ↔
      address.kind = kind ∧ address.path.levels = levels := by
  obtain ⟨above', id, habove', rfl⟩ := exists_wildcardKey hkey hconcrete
  rw [Key.wildcard_prefix_iff]
  constructor
  · rintro ⟨rfl, hstem, -⟩
    have hfitting := fitting_of_storedKey? habove
    have hfitting' := fitting_of_storedKey? habove'
    have htrail := (storedKey?_wildcard_eq_some_iff hfitting above).mp habove
    have htrail' := (storedKey?_wildcard_eq_some_iff hfitting' above').mp habove'
    have hlength : above.length = above'.length := by
      rw [trail?_length htrail, trail?_length htrail', hfitting.length_levelSteps,
        hfitting'.length_levelSteps]
      rfl
    obtain rfl : above = above' := by
      obtain ⟨rest, hrest⟩ := hstem
      exact (List.append_inj hrest hlength).1
    have hnames := congrArg (List.map Prod.snd) (trail?_injective hrows htrail htrail')
    rw [hfitting.map_snd_levelSteps, hfitting'.map_snd_levelSteps] at hnames
    exact ⟨rfl, hnames.symm⟩
  · rintro ⟨rfl, rfl⟩
    obtain rfl : above = above' := congrArg Key.ids (Option.some.inj (habove.symm.trans habove'))
    exact ⟨rfl, List.prefix_append _ _, by simp⟩

end Address

namespace Kept

variable {rows : Rows}

/-- The row of an entity reads as its path and its record. -/
theorem readRow_eq (h : Kept rows) {address : Address} {key : Key} {record : Record}
    (hkey : address.storedKey? rows = some key) (hrecord : address.record? rows = some record) :
    Catalog.readRow rows (key.encode, record.encode) = .ok (address.path, record) := by
  obtain ⟨key', hkey', hconcrete, hfits, -⟩ := (h.record?_eq_some_iff address record).mp hrecord
  obtain rfl := Option.some.inj (hkey'.symm.trans hkey)
  rw [Catalog.readRow, Address.read_storedKey? h.consistent hkey hconcrete]
  dsimp only
  rw [Record.read_eq_ok (Record.decode?_encode record hfits)]
  rfl

/-- The rows below the key of a wildcard are those of the entities of its kind with its levels. -/
theorem mem_scan_wildcardKey_iff (h : Kept rows) {levels : List String} {kind : Kind}
    {above : List UInt64}
    (habove : Address.storedKey? rows ⟨.wildcard levels, kind⟩ = some ⟨kind, above, true⟩) (row : Row) :
    row ∈ rows.scan (Key.encode ⟨kind, above, true⟩) ↔
      ∃ (path : Path) (id : UInt64) (record : Record), path.levels = levels ∧
        Address.storedKey? rows ⟨path, kind⟩ = some ⟨kind, above ++ [id], false⟩ ∧
        Address.record? rows ⟨path, kind⟩ = some record ∧
        row = (Key.encode ⟨kind, above ++ [id], false⟩, record.encode) := by
  rw [Rows.mem_scan_iff]
  constructor
  · rintro ⟨hstem, hrow⟩
    -- A key that extends a stem has a separator for its third byte, so it is that of an entity.
    have hseparator := Layout.getElem?_codeWidth_of_stem hstem
    have haccounted := h.accounted row.1 row.2 hrow
    generalize hkey : row.1 = encoded at haccounted hseparator
    generalize hvalue : row.2 = bytes at haccounted
    cases haccounted with
    | mark mark => exact absurd hseparator (by decide)
    | name name id => exact absurd (hseparator.symm.trans (Layout.nameKey_getElem? name)) (by decide)
    | id id name => exact absurd (hseparator.symm.trans (Layout.idKey_getElem? id)) (by decide)
    | entity address key record hstored hconcrete hfits =>
      rw [hkey] at hstem
      rw [hkey, hvalue] at hrow
      have hrecord : address.record? rows = some record :=
        (h.record?_eq_some_iff address record).mpr ⟨key, hstored, hconcrete, hfits, hrow⟩
      obtain ⟨rfl, rfl⟩ :=
        (Address.wildcardKey_prefix_iff h.consistent habove hstored hconcrete).mp hstem
      obtain ⟨id, rfl⟩ := Address.exists_ownId habove rfl hstored hconcrete
      exact ⟨address.path, id, record, rfl, hstored, hrecord, Prod.ext hkey hvalue⟩
  · rintro ⟨path, id, record, hlevels, hstored, hrecord, rfl⟩
    have hrow := h.get?_storedKey? hstored
    rw [hrecord] at hrow
    exact ⟨(Address.wildcardKey_prefix_iff h.consistent habove hstored rfl).mpr ⟨rfl, hlevels⟩, hrow⟩

end Kept

namespace Catalog

variable {catalog : Catalog} {levels : List String} {kind : Kind}

/-- A record is got exactly where the contents hold it. -/
theorem get_eq_ok_iff (h : catalog.Sound) (address : Address) (record : Record) :
    (catalog.get address).1 = .ok record ↔ catalog.contents address = some record := by
  rw [(get_eq h address).1]
  constructor
  · intro hget
    cases hchecked : address.checked with
    | error fault =>
      rw [hchecked] at hget
      exact absurd hget (by simp [Except.bind])
    | ok =>
      rw [hchecked] at hget
      cases hrecord : catalog.contents address with
      | none =>
        rw [hrecord] at hget
        exact absurd hget (by simp [Except.bind])
      | some found =>
        rw [hrecord] at hget
        exact congrArg some (Except.ok.inj hget)
  · intro hrecord
    rw [Address.checked_of_single (h.contents_single hrecord), hrecord]
    rfl

/-- A list of entities is a look, whether the path of its namespace passes the checks or not. -/
theorem list_looked (h : catalog.Sound) (levels : List String) (kind : Kind) (limit : Option Nat) :
    catalog.Looked (catalog.list levels kind limit).2 := by
  have hlooked := onNames_looked _ (Address.findKey_read h.faithful h.kept.consistent
    ⟨.wildcard levels, kind⟩)
  rw [list]
  cases hfind : catalog.onNames (Address.findKey ⟨.wildcard levels, kind⟩) with
  | mk answer after =>
    rw [hfind] at hlooked
    cases answer with
    | error fault => exact hlooked
    | ok found => cases found <;> exact hlooked

/-- Nothing is listed in a namespace with a name that is not bound. -/
theorem list_of_unmapped (h : catalog.Sound) (hfitting : Address.Fitting ⟨.wildcard levels, kind⟩)
    (hnone : Address.storedKey? catalog.rows ⟨.wildcard levels, kind⟩ = none) (limit : Option Nat) :
    (catalog.list levels kind limit).1 = .ok [] := by
  have hanswer := (Address.findKey_eq h.faithful h.kept.consistent hfitting).1
  have hrows : catalog.names.rows = catalog.rows := rfl
  rw [hrows, hnone] at hanswer
  rw [list]
  cases hfind : catalog.onNames (Address.findKey ⟨.wildcard levels, kind⟩) with
  | mk answer after =>
    obtain rfl : answer = .ok none := (congrArg Prod.fst hfind).symm.trans hanswer
    rfl

/-- A list reads the first rows below the key of the wildcard of its namespace. -/
theorem list_of_wildcardKey (h : catalog.Sound) {key : Key}
    (hkey : Address.storedKey? catalog.rows ⟨.wildcard levels, kind⟩ = some key)
    (limit : Option Nat) :
    (catalog.list levels kind limit).1 =
      (match limit with
        | some count => (catalog.rows.scan key.encode).take count
        | none => catalog.rows.scan key.encode).mapM (readRow catalog.rows) := by
  obtain ⟨hanswer, hread⟩ := Address.findKey_eq h.faithful h.kept.consistent
    (Address.fitting_of_storedKey? hkey)
  have hlooked := onNames_looked _ hread
  have hrows : catalog.names.rows = catalog.rows := rfl
  rw [hrows, hkey] at hanswer
  rw [list]
  cases hfind : catalog.onNames (Address.findKey ⟨.wildcard levels, kind⟩) with
  | mk answer after =>
    obtain rfl : answer = .ok (some key) := (congrArg Prod.fst hfind).symm.trans hanswer
    rw [hfind] at hlooked
    cases limit with
    | none =>
      exact congrArg (fun rows => (rows.scan key.encode).mapM (readRow rows)) hlooked.rows
    | some count =>
      exact congrArg (fun rows => ((rows.scan key.encode).take count).mapM (readRow rows))
        hlooked.rows

/-- The list of the entities of a kind in a namespace: the direct children with their records, each
once, in the numeric order of their own ids. A limit keeps the first of them. -/
structure Lists (catalog : Catalog) (levels : List String) (kind : Kind)
    (entries : List (Path × Record)) : Prop where
  all : (catalog.list levels kind none).1 = .ok entries
  first : ∀ count, (catalog.list levels kind (some count)).1 = .ok (entries.take count)
  mem_iff : ∀ path record, (path, record) ∈ entries ↔
    path.levels = levels ∧ (catalog.get ⟨path, kind⟩).1 = .ok record
  ordered : entries.Pairwise fun a b => ∃ above i j,
    (Address.findKey ⟨a.1, kind⟩ catalog.names).1 = .ok (some ⟨kind, above ++ [i], false⟩) ∧
    (Address.findKey ⟨b.1, kind⟩ catalog.names).1 = .ok (some ⟨kind, above ++ [j], false⟩) ∧ i < j
  nodup : (entries.map Prod.fst).Nodup
  unmapped : (Address.findKey ⟨.wildcard levels, kind⟩ catalog.names).1 = .ok none → entries = []

/-- Paths whose own ids increase are all different. -/
theorem nodup_of_ordered {entries : List (Path × Record)}
    (h : entries.Pairwise fun a b => ∃ above i j,
      (Address.findKey ⟨a.1, kind⟩ catalog.names).1 = .ok (some ⟨kind, above ++ [i], false⟩) ∧
      (Address.findKey ⟨b.1, kind⟩ catalog.names).1 = .ok (some ⟨kind, above ++ [j], false⟩) ∧
      i < j) : (entries.map Prod.fst).Nodup := by
  refine List.pairwise_map.mpr (h.imp ?_)
  rintro a b ⟨above, i, j, ha, hb, hlt⟩ heq
  rw [heq, hb] at ha
  have hids : above ++ [j] = above ++ [i] :=
    congrArg Key.ids (Option.some.inj (Except.ok.inj ha))
  rw [List.singleton_inj.mp (List.append_cancel_left hids)] at hlt
  exact absurd hlt (UInt64.lt_irrefl i)

/-- The first rows of a scan whose rows can all be read are read in turn. -/
theorem list_eq_ok (h : catalog.Sound) {key : Key}
    (hkey : Address.storedKey? catalog.rows ⟨.wildcard levels, kind⟩ = some key)
    {entry : Row → Path × Record}
    (hread : ∀ row ∈ catalog.rows.scan key.encode, readRow catalog.rows row = .ok (entry row)) :
    (catalog.list levels kind none).1 = .ok ((catalog.rows.scan key.encode).map entry) ∧
      ∀ count, (catalog.list levels kind (some count)).1 =
        .ok (((catalog.rows.scan key.encode).map entry).take count) := by
  refine ⟨(list_of_wildcardKey h hkey none).trans (mapM_eq_ok_map hread), fun count => ?_⟩
  rw [list_of_wildcardKey h hkey (some count), ← List.map_take]
  exact mapM_eq_ok_map fun row hmem => hread row (List.mem_of_mem_take hmem)

/-- Below a key, the list is that of the entities whose rows are there. -/
theorem exists_lists_of_wildcardKey (h : catalog.Sound) {above : List UInt64}
    (hkey : Address.storedKey? catalog.rows ⟨.wildcard levels, kind⟩ = some ⟨kind, above, true⟩) :
    ∃ entries, Lists catalog levels kind entries := by
  have hfind {address : Address} {key : Key} (hstored : address.storedKey? catalog.rows = some key) :
      (address.findKey catalog.names).1 = .ok (some key) :=
    (Address.findKey_eq_ok_some_iff h.faithful h.kept.consistent address key).mpr hstored
  have hchildren := h.kept.mem_scan_wildcardKey_iff hkey
  have : Nonempty Path := ⟨.root ""⟩
  have : Nonempty Record := ⟨⟨0, []⟩⟩
  choose! path id record hlevels hstored hrecord hrow using fun row hmem => (hchildren row).mp hmem
  have hread : ∀ row ∈ catalog.rows.scan (Key.encode ⟨kind, above, true⟩),
      readRow catalog.rows row = .ok (path row, record row) := by
    intro row hmem
    have hentity := h.kept.readRow_eq (hstored row hmem) (hrecord row hmem)
    rwa [← hrow row hmem] at hentity
  obtain ⟨hall, hfirst⟩ := list_eq_ok h hkey hread
  have hordered : ((catalog.rows.scan (Key.encode ⟨kind, above, true⟩)).map
      fun row => (path row, record row)).Pairwise fun a b => ∃ above i j,
        (Address.findKey ⟨a.1, kind⟩ catalog.names).1 = .ok (some ⟨kind, above ++ [i], false⟩) ∧
        (Address.findKey ⟨b.1, kind⟩ catalog.names).1 = .ok (some ⟨kind, above ++ [j], false⟩) ∧
        i < j := by
    refine List.pairwise_map.mpr ((Rows.scan_keysIncrease _ _).imp_of_mem ?_)
    intro row row' hmem hmem' hlt
    rw [hrow row hmem, hrow row' hmem'] at hlt
    exact ⟨above, id row, id row', hfind (hstored row hmem), hfind (hstored row' hmem'),
      (Key.encode_concat_lt_iff kind above).mp hlt⟩
  refine ⟨_, hall, hfirst, fun path' record' => ?_, hordered, nodup_of_ordered hordered,
    fun hunmapped => ?_⟩
  · rw [List.mem_map, get_eq_ok_iff h]
    constructor
    · rintro ⟨row, hmem, heq⟩
      obtain ⟨rfl, rfl⟩ := Prod.mk.inj heq
      exact ⟨hlevels row hmem, hrecord row hmem⟩
    · rintro ⟨rfl, hfound⟩
      obtain ⟨key, hstored', hconcrete, -, -⟩ := (h.kept.record?_eq_some_iff _ record').mp hfound
      obtain ⟨id', rfl⟩ := Address.exists_ownId hkey rfl hstored' hconcrete
      have hmem := (hchildren _).mpr ⟨path', id', record', rfl, hstored', hfound, rfl⟩
      exact ⟨_, hmem, Except.ok.inj ((hread _ hmem).symm.trans (h.kept.readRow_eq hstored' hfound))⟩
  · rw [hfind hkey] at hunmapped
    exact absurd hunmapped (by simp)

/-- A sound catalog lists exactly the direct children of every namespace of the right depth. -/
theorem exists_lists (h : catalog.Sound) (hfitting : Address.Fitting ⟨.wildcard levels, kind⟩) :
    ∃ entries, Lists catalog levels kind entries := by
  cases hkey : Address.storedKey? catalog.rows ⟨.wildcard levels, kind⟩ with
  | none =>
    refine ⟨[], list_of_unmapped h hfitting hkey none, fun count => ?_, fun path record => ?_,
      .nil, List.nodup_nil, fun _ => rfl⟩
    · rw [list_of_unmapped h hfitting hkey (some count), List.take_nil]
    · simp only [List.not_mem_nil, false_iff, get_eq_ok_iff h]
      rintro ⟨rfl, hrecord⟩
      -- The wildcard of the namespace of an entity that is there has a key.
      obtain ⟨key, hstored, hconcrete, -⟩ := (h.kept.record?_eq_some_iff _ record).mp hrecord
      obtain ⟨above, id, habove, -⟩ := Address.exists_wildcardKey hstored hconcrete
      exact absurd (hkey.symm.trans habove) (by simp)
  | some key =>
    obtain ⟨above, -, rfl⟩ := (hfitting.storedKey?_eq_some_iff _ key).mp hkey
    have hkeyOf : Address.keyOf ⟨.wildcard levels, kind⟩ above = ⟨kind, above, true⟩ := by
      simp [Address.keyOf]
    rw [hkeyOf] at hkey
    exact exists_lists_of_wildcardKey h hkey

end Catalog

end EntityCatalog
