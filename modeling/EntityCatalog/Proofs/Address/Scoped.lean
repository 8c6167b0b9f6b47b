import EntityCatalog.Proofs.Address.Lookup

/-!
# Id rows that hold scoped names

Resolving the keys of addresses notes no names in the id rows but concrete ones within scopes. In
such rows every key that reads as an address, and whose ids are all bound to the names that their id
rows hold, is the stored key of that address: the names read back have the ids for their trail, and
being concrete they pass the checks of a path.

Rows with other names would not do. An id row that holds an empty name within a scope reads as part
of a path that no check lets pass.
-/

namespace EntityCatalog

namespace Address

/-- Every name in an address that passes the checks is concrete, apart from a wildcard. -/
theorem Fitting.isConcrete_of_mem_steps {address : Address} (h : address.Fitting)
    {step : Kind × String} (hstep : step ∈ address.steps address.kinds) :
    isConcrete step.2 = true := by
  obtain ⟨-, -, hlevels, hleaf⟩ := (levels_eq_ok_iff address _).mp h
  rw [steps, List.mem_append] at hstep
  rcases hstep with hlevel | hown
  · have hname := List.mem_map_of_mem (f := Prod.snd) hlevel
    rw [h.map_snd_levelSteps] at hname
    exact List.all_eq_true.mp hlevels _ hname
  · cases hwildcard : address.path.isWildcard with
    | true => simp [hwildcard] at hown
    | false =>
      obtain rfl : step = (address.kind, address.path.leaf) := by simpa [hwildcard] using hown
      exact (single_of_levels h hwildcard).isConcrete_leaf

end Address

/-- The bytes of a concrete name within some scope. -/
def IsScoped (bytes : Bytes) : Prop :=
  ∃ above kind name, Address.isConcrete name = true ∧ bytes = Text.utf8 (scopedName above kind name)

/-- Every id row holds a concrete name within some scope. -/
def Scoped (rows : Rows) : Prop :=
  ∀ id bytes, rows.get? (Layout.idKey id) = some bytes → IsScoped bytes

namespace Scoped

open Address

variable {rows rows' : Rows}

/-- Without rows there is no id whose name could lack a scope. -/
theorem empty : Scoped Rows.empty := fun id bytes h => absurd h (by simp)

/-- New id rows have to hold scoped names. -/
theorem of_idRows (h : Scoped rows)
    (hnew : ∀ id, rows'.get? (Layout.idKey id) = rows.get? (Layout.idKey id) ∨
      ∃ bytes, rows'.get? (Layout.idKey id) = some bytes ∧ IsScoped bytes) : Scoped rows' := by
  intro id bytes hrow
  rcases hnew id with hsame | ⟨bytes', hrow', hscoped⟩
  · exact h id bytes (hsame.symm.trans hrow)
  · rw [← Option.some.inj (hrow'.symm.trans hrow)]
    exact hscoped

/-- Whether the names are scoped is decided by the id rows alone. -/
theorem congr (h : Scoped rows)
    (hids : ∀ id, rows'.get? (Layout.idKey id) = rows.get? (Layout.idKey id)) : Scoped rows' :=
  h.of_idRows fun id => Or.inl (hids id)

/-- Binding the scoped name of an entity keeps all names scoped. -/
theorem withBinding (h : Scoped rows) (above : List UInt64) (kind : Kind) {name : String}
    (hname : isConcrete name = true) (id : UInt64) :
    Scoped (Names.withBinding rows (scopedName above kind name) id) := by
  refine h.of_idRows fun id' => ?_
  rw [Names.get?_withBinding]
  split
  · exact Or.inr ⟨_, rfl, above, kind, name, hname, rfl⟩
  · rw [if_neg (Layout.nameKey_ne_idKey _ id')]
    exact Or.inl rfl

/-- A name that reads back from scoped rows is concrete. -/
theorem isConcrete_of_nameOf (h : Scoped rows) {above : List UInt64} {kind : Kind} {id : UInt64}
    {name : String} (hname : nameOf rows above kind id = .ok name) : isConcrete name = true := by
  have hstored := storedName?_of_nameOf hname
  rw [Names.storedName?] at hstored
  split at hstored
  · exact absurd hstored (by simp)
  · rename_i bytes hrow
    split at hstored
    · rename_i full hfull
      obtain rfl := Option.some.inj (Except.ok.inj hstored)
      obtain ⟨above', kind', name', hconcrete, rfl⟩ := h id bytes hrow
      rw [Text.ofUtf8?_utf8] at hfull
      rwa [(scopedName_injective (Option.some.inj hfull)).2.2] at hconcrete
    · exact absurd hstored (by simp)

end Scoped

/-! ## Reading keys whose ids are bound -/

namespace Address

/-- An id that is bound to the name in its id row. -/
def IsBound (rows : Rows) (id : UInt64) : Prop :=
  ∃ name, Names.storedName? rows id = .ok (some name) ∧
    rows.get? (Layout.nameKey name) = some (wordBytes id)

/-- A bound id is bound to the scoped form of the name that is read for it. -/
theorem boundId?_of_nameOf {rows : Rows} {above : List UInt64} {kind : Kind} {id : UInt64}
    {name : String} (hname : nameOf rows above kind id = .ok name) (hbound : IsBound rows id) :
    Names.boundId? rows (scopedName above kind name) = some id := by
  obtain ⟨full, hfull, hrow⟩ := hbound
  rw [storedName?_of_nameOf hname] at hfull
  rw [Option.some.inj (Except.ok.inj hfull)]
  exact (Names.boundId?_eq_some_iff rows full id).mpr hrow

/-- Concrete names read back from bound ids, one for each, and have the ids for their trail. -/
theorem trail?_of_namesOf {rows : Rows} (h : Scoped rows) {leaf : Kind}
    {above ids : List UInt64} {kinds : List Kind} {names : List String}
    (hnames : namesOf rows leaf above kinds ids = .ok names)
    (hlength : ids.length ≤ kinds.length + 1) (hbound : ∀ id ∈ ids, IsBound rows id) :
    names.length = ids.length ∧ (∀ name ∈ names, isConcrete name = true) ∧
      trail? rows ((kinds ++ [leaf]).zip names) above = some (above ++ ids) := by
  induction ids generalizing above kinds names with
  | nil =>
    obtain rfl := Except.ok.inj hnames
    refine ⟨rfl, fun name hname => absurd hname List.not_mem_nil, ?_⟩
    rw [List.zip_nil_right, List.append_nil, trail?]
  | cons id rest ih =>
    rw [namesOf] at hnames
    cases hname : nameOf rows above (kinds.headD leaf) id with
    | error fault =>
      rw [hname] at hnames
      exact absurd hnames (by simp)
    | ok name =>
      rw [hname] at hnames
      dsimp only at hnames
      cases hmore : namesOf rows leaf (above ++ [id]) kinds.tail rest with
      | error fault =>
        rw [hmore] at hnames
        exact absurd hnames (by simp)
      | ok more =>
        rw [hmore] at hnames
        obtain rfl := Except.ok.inj hnames
        have hid := boundId?_of_nameOf hname (hbound id List.mem_cons_self)
        have hconcrete := h.isConcrete_of_nameOf hname
        have hrest : rest.length ≤ kinds.tail.length + 1 := by
          rw [List.length_cons] at hlength
          rw [List.length_tail]
          omega
        obtain ⟨hcount, hall, htrail⟩ :=
          ih hmore hrest fun id' hid' => hbound id' (List.mem_cons_of_mem _ hid')
        refine ⟨by rw [List.length_cons, List.length_cons, hcount], ?_, ?_⟩
        · intro name' hname'
          rcases List.mem_cons.mp hname' with rfl | hname'
          · exact hconcrete
          · exact hall name' hname'
        · rw [List.append_assoc, List.singleton_append] at htrail
          -- The kinds go on below the level just read; below the last of them nothing is left.
          cases kinds with
          | cons kind kinds =>
            exact (trail?_cons_eq_some_iff rows kind name _ above _).mpr ⟨id, hid, htrail⟩
          | nil =>
            obtain rfl : rest = [] := List.eq_nil_of_length_eq_zero (by simpa using hlength)
            obtain rfl : more = [] := List.eq_nil_of_length_eq_zero hcount
            exact (trail?_cons_eq_some_iff rows leaf name _ above _).mpr ⟨id, hid, rfl⟩

/-- The wildcard below concrete names has the ids of their trail in its key. -/
theorem storedKey?_wildcard {rows : Rows} {kind : Kind} {kinds : List Kind} {ids : List UInt64}
    {names : List String} (hkinds : kind.ancestors = some kinds)
    (hlength : names.length = kinds.length) (hall : ∀ name ∈ names, isConcrete name = true)
    (htrail : trail? rows ((kinds ++ [kind]).zip names) [] = some ids) :
    storedKey? rows ⟨.wildcard names, kind⟩ = some ⟨kind, ids, true⟩ := by
  have hlevels := (levels_wildcard_eq_ok_iff names kind kinds).mpr ⟨hkinds, hlength, hall⟩
  rw [storedKey?_wildcard_eq_some_iff (fitting_of_levels hlevels), kinds_of_levels hlevels]
  rwa [zip_append_left hlength.symm] at htrail

/-- The entity with the given names has the ids of their trail in its key. -/
theorem storedKey?_ofSegments {rows : Rows} {kind : Kind} {kinds : List Kind} {ids : List UInt64}
    {names : List String} (hkinds : kind.ancestors = some kinds)
    (hlength : names.length = kinds.length + 1) (hall : ∀ name ∈ names, isConcrete name = true)
    (htrail : trail? rows ((kinds ++ [kind]).zip names) [] = some ids) :
    storedKey? rows ⟨.ofSegments names, kind⟩ = some ⟨kind, ids, false⟩ := by
  have hsegments : (Path.ofSegments names).segments = names :=
    Path.segments_ofSegments fun hnil => by simp [hnil] at hlength
  have hown : Address.kinds ⟨.ofSegments names, kind⟩ = kinds := by
    rw [Address.kinds, hkinds, Option.getD_some]
  have hsingle : Single ⟨.ofSegments names, kind⟩ := by
    rw [single_iff, hown, hsegments]
    exact ⟨hkinds, hlength, hall⟩
  have hlengths : (kinds ++ [kind]).length = names.length := by
    rw [List.length_append, List.length_singleton, hlength]
  have hline : line ⟨.ofSegments names, kind⟩ = (kinds ++ [kind]).zip names := by
    apply eq_of_map_eq
    · rw [hsingle.map_fst_line, hown, List.map_fst_zip (Nat.le_of_eq hlengths)]
    · rw [hsingle.map_snd_line, hsegments, List.map_snd_zip (Nat.le_of_eq hlengths.symm)]
  rw [hsingle.storedKey?_eq, hline, htrail, Option.map_some]

/-- An address that reads from the bytes of a key with bound ids has this key, when the id rows are
scoped. -/
theorem storedKey?_of_read {rows : Rows} (h : Scoped rows) {bytes : Bytes} {key : Key}
    {address : Address} (hread : read rows bytes = .ok address)
    (hdecode : Key.decode bytes = .ok key) (hbound : ∀ id ∈ key.ids, IsBound rows id) :
    address.storedKey? rows = some key := by
  obtain ⟨-, depth, hdepth, hids⟩ := (Key.decode_eq_ok_iff bytes key).mp hdecode
  obtain ⟨kind, ids, wildcard⟩ := key
  obtain ⟨kinds, hkinds, rfl⟩ := Option.map_eq_some_iff.mp hdepth
  dsimp only at hkinds hids hbound
  rw [read, hdecode] at hread
  simp only [ofKey, hkinds] at hread
  cases hnames : namesOf rows kind [] kinds ids with
  | error fault =>
    rw [hnames] at hread
    exact absurd hread (by simp)
  | ok names =>
    rw [hnames] at hread
    obtain rfl := Except.ok.inj hread
    have hfew : ids.length ≤ kinds.length + 1 := by
      rw [hids]
      split <;> omega
    obtain ⟨hlength, hall, htrail⟩ := trail?_of_namesOf h hnames hfew hbound
    rw [← hlength] at hids
    cases wildcard with
    | true => exact storedKey?_wildcard hkinds hids hall htrail
    | false => exact storedKey?_ofSegments hkinds hids hall htrail

end Address

end EntityCatalog
