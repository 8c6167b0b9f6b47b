import EntityCatalog.Proofs.Address.Hierarchy

/-!
# Keys of addresses and addresses of keys

The stored key of an address is the one that its trail gives. In consistent rows, finding the key
of an address answers with its stored key and changes no row, and resolving it grows the rows
until the key is stored. Reading the bytes of a stored key gives the address back.
-/

namespace EntityCatalog

namespace Address

/-- The key of an address, if its path passes the checks and all its names are bound. -/
def storedKey? (rows : Rows) (address : Address) : Option Key :=
  match address.levels with
  | .ok kinds => (trail? rows (address.steps kinds) []).map address.keyOf
  | .error _ => none

/-- A stored key depends on the name rows alone. -/
theorem storedKey?_congr {rows rows' : Rows}
    (h : ∀ name, rows'.get? (Layout.nameKey name) = rows.get? (Layout.nameKey name))
    (address : Address) : address.storedKey? rows' = address.storedKey? rows := by
  rw [storedKey?, storedKey?]
  cases address.levels with
  | error fault => rfl
  | ok kinds =>
    dsimp only
    rw [trail?_congr h]

/-- A stored key stays when all names keep their ids. -/
theorem storedKey?_mono {rows rows' : Rows}
    (h : ∀ name id, Names.boundId? rows name = some id → Names.boundId? rows' name = some id)
    {address : Address} {key : Key} (hkey : address.storedKey? rows = some key) :
    address.storedKey? rows' = some key := by
  rw [storedKey?] at hkey ⊢
  cases hlevels : address.levels with
  | error fault =>
    rw [hlevels] at hkey
    exact absurd hkey (by simp)
  | ok kinds =>
    rw [hlevels] at hkey
    obtain ⟨ids, hids, heq⟩ := Option.map_eq_some_iff.mp hkey
    exact Option.map_eq_some_iff.mpr ⟨ids, trail?_mono h hids, heq⟩

/-- The stored key of an address that passes the checks is that of the trail of its names. -/
theorem Fitting.storedKey?_eq {address : Address} (h : address.Fitting) (rows : Rows) :
    address.storedKey? rows =
      (trail? rows (address.steps address.kinds) []).map address.keyOf := by
  rw [Fitting] at h
  rw [storedKey?, h]

/-- The key of a fitting address is stored exactly if its steps lead to ids, and consists of these. -/
theorem Fitting.storedKey?_eq_some_iff {address : Address} (h : address.Fitting) (rows : Rows)
    (key : Key) :
    address.storedKey? rows = some key ↔
      ∃ ids, trail? rows (address.steps address.kinds) [] = some ids ∧ key = address.keyOf ids := by
  rw [h.storedKey?_eq, Option.map_eq_some_iff]
  simp only [eq_comm]

/-- An address that has a stored key passes the checks. -/
theorem fitting_of_storedKey? {rows : Rows} {address : Address} {key : Key}
    (h : address.storedKey? rows = some key) : address.Fitting := by
  rw [storedKey?] at h
  cases hlevels : address.levels with
  | error fault =>
    rw [hlevels] at h
    exact absurd h (by simp)
  | ok kinds => exact fitting_of_levels hlevels

/-- The stored key of an address that stands for one entity is that of its trail. -/
theorem Single.storedKey?_eq {address : Address} (h : address.Single) (rows : Rows) :
    address.storedKey? rows =
      (trail? rows address.line []).map fun ids => ⟨address.kind, ids, false⟩ := by
  have hkeyOf : address.keyOf = fun ids => ⟨address.kind, ids, false⟩ := by
    funext ids
    rw [keyOf, h.concrete]
  rw [h.fitting.storedKey?_eq, h.steps_eq_line, hkeyOf]

/-- An address whose stored key is no wildcard key stands for one entity. -/
theorem single_of_storedKey? {rows : Rows} {address : Address} {key : Key}
    (h : address.storedKey? rows = some key) (hconcrete : key.wildcard = false) :
    address.Single := by
  have hfitting := fitting_of_storedKey? h
  obtain ⟨ids, -, rfl⟩ := (hfitting.storedKey?_eq_some_iff rows key).mp h
  exact single_of_levels hfitting hconcrete

/-- The key of a single entity is stored exactly if its line leads to ids, and consists of these. -/
theorem Single.storedKey?_eq_some_iff {address : Address} (h : address.Single) (rows : Rows)
    (key : Key) :
    address.storedKey? rows = some key ↔
      ∃ ids, trail? rows address.line [] = some ids ∧ key = ⟨address.kind, ids, false⟩ := by
  rw [h.storedKey?_eq, Option.map_eq_some_iff]
  constructor
  · rintro ⟨ids, hids, rfl⟩
    exact ⟨ids, hids, rfl⟩
  · rintro ⟨ids, hids, rfl⟩
    exact ⟨ids, hids, rfl⟩

/-- The key of a wildcard has the ids of its levels. -/
theorem storedKey?_wildcard_eq_some_iff {rows : Rows} {levels : List String} {kind : Kind}
    (h : Fitting ⟨.wildcard levels, kind⟩) (above : List UInt64) :
    storedKey? rows ⟨.wildcard levels, kind⟩ = some ⟨kind, above, true⟩ ↔
      trail? rows (levelSteps ⟨.wildcard levels, kind⟩ (kinds ⟨.wildcard levels, kind⟩)) [] =
        some above := by
  rw [h.storedKey?_eq_some_iff, steps_of_wildcard _ (Path.isWildcard_wildcard levels)]
  simp [keyOf]

/-- In consistent rows no two entities have the same key. -/
theorem storedKey?_injective {rows : Rows} (hrows : Names.Consistent rows)
    {address address' : Address} {key : Key} (hconcrete : key.wildcard = false)
    (h : address.storedKey? rows = some key) (h' : address'.storedKey? rows = some key) :
    address = address' := by
  have hsingle := single_of_storedKey? h hconcrete
  have hsingle' := single_of_storedKey? h' hconcrete
  obtain ⟨ids, hids, rfl⟩ := (hsingle.storedKey?_eq_some_iff rows key).mp h
  obtain ⟨ids', hids', heq⟩ := (hsingle'.storedKey?_eq_some_iff rows _).mp h'
  obtain rfl : ids = ids' := congrArg Key.ids heq
  exact line_injective hsingle hsingle' (trail?_injective hrows hids hids')

/-! ## Finding keys -/

/-- Finding the ids of names gives their trail and reads the registry. -/
theorem findSteps_eq {names : Names} (h : names.Faithful) (hrows : Names.Consistent names.rows)
    (steps : List (Kind × String)) (above : List UInt64) :
    (findSteps steps above names).1 = .ok (trail? names.rows steps above) ∧
      names.Read (findSteps steps above names).2 := by
  induction steps generalizing above names with
  | nil => exact ⟨rfl, .refl h⟩
  | cons step rest ih =>
    obtain ⟨kind, name⟩ := step
    have hanswer := Names.find?_eq h hrows (scopedName above kind name)
    have hread := Names.find?_read h (scopedName above kind name)
    rw [findSteps, trail?]
    cases hfind : names.find? (scopedName above kind name) with
    | mk answer after =>
      rw [hfind] at hanswer hread
      obtain rfl := hanswer
      cases Names.boundId? names.rows (scopedName above kind name) with
      | none => exact ⟨rfl, hread⟩
      | some id =>
        have hafter : Names.Consistent after.rows := by
          rw [hread.rows]
          exact hrows
        obtain ⟨htrail, hrest⟩ := ih hread.faithful hafter (above ++ [id])
        rw [hread.rows] at htrail
        exact ⟨htrail, hread.trans hrest⟩

/-- A path that fails the checks has no key to be found. -/
theorem findKey_of_error {address : Address} {fault : Error} (names : Names)
    (hlevels : address.levels = .error fault) : address.findKey names = (.error fault, names) := by
  rw [findKey, hlevels]

/-- Finding the key of an address gives its stored key. -/
theorem findKey_eq {names : Names} (h : names.Faithful) (hrows : Names.Consistent names.rows)
    {address : Address} {kinds : List Kind} (hlevels : address.levels = .ok kinds) :
    (address.findKey names).1 = .ok (address.storedKey? names.rows) ∧
      names.Read (address.findKey names).2 := by
  obtain ⟨hanswer, hread⟩ := findSteps_eq h hrows (address.steps kinds) []
  simp only [findKey, storedKey?, hlevels]
  cases hfind : findSteps (address.steps kinds) [] names with
  | mk answer after =>
    rw [hfind] at hanswer hread
    obtain rfl := hanswer
    cases trail? names.rows (address.steps kinds) [] with
    | none => exact ⟨rfl, hread⟩
    | some ids => exact ⟨rfl, hread⟩

/-- The key that is found for an address is the stored one. -/
theorem findKey_eq_ok_some_iff {names : Names} (h : names.Faithful)
    (hrows : Names.Consistent names.rows) (address : Address) (key : Key) :
    (address.findKey names).1 = .ok (some key) ↔ address.storedKey? names.rows = some key := by
  cases hlevels : address.levels with
  | error fault =>
    have hnone : address.storedKey? names.rows = none := by rw [storedKey?, hlevels]
    simp [hnone, findKey_of_error names hlevels]
  | ok kinds =>
    rw [(findKey_eq h hrows hlevels).1]
    exact ⟨Except.ok.inj, congrArg Except.ok⟩

/-- Finding the scoped name of an entity scopes it by the trail of its levels. -/
theorem findName_eq {names : Names} (h : names.Faithful) (hrows : Names.Consistent names.rows)
    {address : Address} (hsingle : address.Single) :
    (address.findName names).1 =
        .ok ((trail? names.rows (address.levelSteps address.kinds) []).map fun ids =>
          scopedName ids address.kind address.path.leaf) ∧
      names.Read (address.findName names).2 := by
  obtain ⟨hanswer, hread⟩ := findSteps_eq h hrows (address.levelSteps address.kinds) []
  simp only [findName, hsingle.levels, hsingle.concrete, Bool.false_eq_true, if_false]
  cases hfind : findSteps (address.levelSteps address.kinds) [] names with
  | mk answer after =>
    rw [hfind] at hanswer hread
    obtain rfl := hanswer
    cases trail? names.rows (address.levelSteps address.kinds) [] with
    | none => exact ⟨rfl, hread⟩
    | some ids => exact ⟨rfl, hread⟩

/-- Looking for the key of an address reads the registry, also when its path fails the checks. -/
theorem findKey_read {names : Names} (h : names.Faithful) (hrows : Names.Consistent names.rows)
    (address : Address) : names.Read (address.findKey names).2 := by
  cases hlevels : address.levels with
  | error fault =>
    rw [findKey_of_error names hlevels]
    exact .refl h
  | ok kinds => exact (findKey_eq h hrows hlevels).2

/-- Looking for the scoped name of an entity reads the registry, also when its path fails the
checks. -/
theorem findName_read {names : Names} (h : names.Faithful) (hrows : Names.Consistent names.rows)
    (address : Address) : names.Read (address.findName names).2 := by
  cases hlevels : address.levels with
  | error fault =>
    rw [findName, hlevels]
    exact .refl h
  | ok kinds =>
    cases hconcrete : address.path.isWildcard with
    | true =>
      simp only [findName, hlevels, hconcrete, if_true]
      exact .refl h
    | false => exact (findName_eq h hrows (single_of_levels hlevels hconcrete)).2

/-! ## Resolving keys -/

/-- Resolving names grows the rows, and the ids that it gives are then the trail of the names. -/
theorem resolveSteps_grows {names : Names} (h : names.Faithful)
    (hrows : Names.Consistent names.rows) (steps : List (Kind × String)) (above : List UInt64) :
    Names.Grows names.rows (resolveSteps steps above names).2.rows ∧
      (resolveSteps steps above names).2.Faithful ∧
      ∀ ids, (resolveSteps steps above names).1 = .ok ids →
        trail? (resolveSteps steps above names).2.rows steps above = some ids := by
  induction steps generalizing above names with
  | nil => exact ⟨.refl, h, fun ids hids => congrArg some (Except.ok.inj hids)⟩
  | cons step rest ih =>
    obtain ⟨kind, name⟩ := step
    obtain ⟨hgrows, hbound⟩ := Names.resolve_grows h hrows (scopedName above kind name)
    have hfaithful := (Names.resolve_transparent h (scopedName above kind name)).faithful
    rw [resolveSteps]
    cases hresolve : names.resolve (scopedName above kind name) with
    | mk answer after =>
      rw [hresolve] at hgrows hbound hfaithful
      cases answer with
      | error fault => exact ⟨hgrows, hfaithful, fun ids hids => absurd hids (by simp)⟩
      | ok id =>
        obtain ⟨hmore, hafter, htrail⟩ := ih hfaithful (hgrows.consistent hrows) (above ++ [id])
        refine ⟨hgrows.trans hmore, hafter, fun ids hids => ?_⟩
        exact (trail?_cons_eq_some_iff _ kind name rest above ids).mpr
          ⟨id, hmore.boundId?_eq_some (hbound id rfl), htrail ids hids⟩

/-- Resolving names fails only for want of free ids. -/
theorem resolveSteps_error {names : Names} (h : names.Faithful)
    (hrows : Names.Consistent names.rows) {steps : List (Kind × String)} {above : List UInt64}
    {fault : Error} (hfault : (resolveSteps steps above names).1 = .error fault) :
    ∃ name, fault = .internal (.idsExhausted name Names.maxAttempts) := by
  induction steps generalizing above names with
  | nil => exact absurd hfault (by simp [resolveSteps])
  | cons step rest ih =>
    obtain ⟨kind, name⟩ := step
    have hgrows := (Names.resolve_grows h hrows (scopedName above kind name)).1
    have hfaithful := (Names.resolve_transparent h (scopedName above kind name)).faithful
    have herror (fault : Error) (hanswer : (names.resolve (scopedName above kind name)).1 = .error fault) :
        fault = .internal (.idsExhausted (scopedName above kind name) Names.maxAttempts) := by
      cases hbound : Names.boundId? names.rows (scopedName above kind name) with
      | some id =>
        rw [(Names.resolve_of_bound h hrows hbound).1] at hanswer
        exact absurd hanswer (by simp)
      | none =>
        rcases Names.resolve_of_free h ((hrows.boundId?_eq_none_iff _).mp hbound) with
          ⟨id, hid, -⟩ | ⟨hexhausted, -⟩
        · rw [hid] at hanswer
          exact absurd hanswer (by simp)
        · rw [hexhausted] at hanswer
          exact (Except.error.inj hanswer).symm
    rw [resolveSteps] at hfault
    cases hresolve : names.resolve (scopedName above kind name) with
    | mk answer after =>
      rw [hresolve] at hfault hgrows hfaithful herror
      cases answer with
      | error fault' => exact ⟨_, (Except.error.inj hfault).symm.trans (herror fault' rfl)⟩
      | ok id => exact ih hfaithful (hgrows.consistent hrows) hfault

/-- Resolving names that have a trail gives the trail and reads the registry. -/
theorem resolveSteps_of_trail? {names : Names} (h : names.Faithful)
    (hrows : Names.Consistent names.rows) {steps : List (Kind × String)} {above ids : List UInt64}
    (htrail : trail? names.rows steps above = some ids) :
    (resolveSteps steps above names).1 = .ok ids ∧
      names.Read (resolveSteps steps above names).2 := by
  induction steps generalizing above names with
  | nil => exact ⟨congrArg Except.ok (Option.some.inj htrail), .refl h⟩
  | cons step rest ih =>
    obtain ⟨kind, name⟩ := step
    obtain ⟨id, hid, hrest⟩ := (trail?_cons_eq_some_iff _ kind name rest above ids).mp htrail
    obtain ⟨hanswer, hread⟩ := Names.resolve_of_bound h hrows hid
    rw [resolveSteps]
    cases hresolve : names.resolve (scopedName above kind name) with
    | mk answer after =>
      rw [hresolve] at hanswer hread
      obtain rfl := hanswer
      rw [← hread.rows] at hrows hrest
      obtain ⟨hids, hmore⟩ := ih hread.faithful hrows hrest
      exact ⟨hids, hread.trans hmore⟩

/-- A path that fails the checks has no key to be resolved. -/
theorem resolveKey_of_error {address : Address} {fault : Error} (names : Names)
    (hlevels : address.levels = .error fault) :
    address.resolveKey names = (.error fault, names) := by
  rw [resolveKey, hlevels]

/-- Resolving the key of an address grows the rows, and the key that it gives is then stored. -/
theorem resolveKey_grows {names : Names} (h : names.Faithful)
    (hrows : Names.Consistent names.rows) (address : Address) :
    Names.Grows names.rows (address.resolveKey names).2.rows ∧
      (address.resolveKey names).2.Faithful ∧
      ∀ key, (address.resolveKey names).1 = .ok key →
        address.storedKey? (address.resolveKey names).2.rows = some key := by
  cases hlevels : address.levels with
  | error fault =>
    rw [resolveKey_of_error names hlevels]
    exact ⟨.refl, h, fun key hkey => absurd hkey (by simp)⟩
  | ok kinds =>
    obtain ⟨hgrows, hfaithful, htrail⟩ := resolveSteps_grows h hrows (address.steps kinds) []
    simp only [resolveKey, storedKey?, hlevels]
    cases hresolve : resolveSteps (address.steps kinds) [] names with
    | mk answer after =>
      rw [hresolve] at hgrows hfaithful htrail
      cases answer with
      | error fault => exact ⟨hgrows, hfaithful, fun key hkey => absurd hkey (by simp)⟩
      | ok ids =>
        refine ⟨hgrows, hfaithful, fun key hkey => ?_⟩
        rw [htrail ids rfl, Option.map_some, Except.ok.inj hkey]

/-- Resolving the key of an address that passes the checks fails only for want of free ids. -/
theorem resolveKey_error {names : Names} (h : names.Faithful)
    (hrows : Names.Consistent names.rows) {address : Address} {kinds : List Kind}
    (hlevels : address.levels = .ok kinds) {fault : Error}
    (hfault : (address.resolveKey names).1 = .error fault) :
    ∃ name, fault = .internal (.idsExhausted name Names.maxAttempts) := by
  simp only [resolveKey, hlevels] at hfault
  cases hresolve : resolveSteps (address.steps kinds) [] names with
  | mk answer after =>
    rw [hresolve] at hfault
    cases answer with
    | ok ids => exact absurd hfault (by simp)
    | error fault' =>
      obtain rfl := Except.error.inj hfault
      exact resolveSteps_error h hrows (congrArg Prod.fst hresolve)

/-- Resolving a stored key gives it and reads the registry. -/
theorem resolveKey_of_storedKey? {names : Names} (h : names.Faithful)
    (hrows : Names.Consistent names.rows) {address : Address} {key : Key}
    (hkey : address.storedKey? names.rows = some key) :
    (address.resolveKey names).1 = .ok key ∧ names.Read (address.resolveKey names).2 := by
  rw [storedKey?] at hkey
  cases hlevels : address.levels with
  | error fault =>
    rw [hlevels] at hkey
    exact absurd hkey (by simp)
  | ok kinds =>
    rw [hlevels] at hkey
    obtain ⟨ids, hids, rfl⟩ := Option.map_eq_some_iff.mp hkey
    obtain ⟨hanswer, hread⟩ := resolveSteps_of_trail? h hrows hids
    simp only [resolveKey, hlevels]
    cases hresolve : resolveSteps (address.steps kinds) [] names with
    | mk answer after =>
      rw [hresolve] at hanswer hread
      obtain rfl := hanswer
      exact ⟨rfl, hread⟩

/-! ## Reading keys -/

/-- The name of an id that is bound in its scope. -/
theorem nameOf_eq {rows : Rows} (hrows : Names.Consistent rows) {above : List UInt64} {kind : Kind}
    {name : String} {id : UInt64} (hid : Names.boundId? rows (scopedName above kind name) = some id) :
    nameOf rows above kind id = .ok name := by
  rw [nameOf, hrows.storedName?_eq hid]
  simp

/-- The ids of a trail read back as its names, when the kinds go down to that of the leaf. -/
theorem namesOf_eq {rows : Rows} (hrows : Names.Consistent rows) {leaf : Kind}
    {steps : List (Kind × String)} {above own : List UInt64} {kinds : List Kind}
    (htrail : trail? rows steps above = some (above ++ own))
    (hkinds : steps.map Prod.fst <+: kinds ++ [leaf]) :
    namesOf rows leaf above kinds own = .ok (steps.map Prod.snd) := by
  induction steps generalizing above own kinds with
  | nil =>
    have hown : own = [] := by simpa [trail?] using htrail
    rw [hown, namesOf, List.map_nil]
  | cons step rest ih =>
    obtain ⟨kind, name⟩ := step
    obtain ⟨id, hid, hrest⟩ := (trail?_cons_eq_some_iff rows kind name rest above _).mp htrail
    obtain ⟨own', heq, -⟩ := trail?_eq_append hrest
    rw [List.append_assoc, List.append_cancel_left_eq, List.singleton_append] at heq
    subst heq
    have htrail' : trail? rows rest (above ++ [id]) = some ((above ++ [id]) ++ own') := by
      rw [hrest, List.append_assoc, List.singleton_append]
    have hhead : kinds.headD leaf = kind ∧ rest.map Prod.fst <+: kinds.tail ++ [leaf] := by
      cases kinds with
      | nil =>
        obtain ⟨rfl, hnil⟩ := List.cons_prefix_cons.mp hkinds
        rw [List.prefix_nil.mp hnil]
        exact ⟨rfl, List.nil_prefix⟩
      | cons kind' kinds =>
        obtain ⟨rfl, htail⟩ := List.cons_prefix_cons.mp hkinds
        exact ⟨rfl, htail⟩
    rw [namesOf, hhead.1, nameOf_eq hrows hid]
    simp only [ih htrail' hhead.2, List.map_cons]

/-- Names that are read of ids are within the scopes that the id rows hold. -/
theorem storedName?_of_nameOf {rows : Rows} {above : List UInt64} {kind : Kind} {id : UInt64}
    {name : String} (h : nameOf rows above kind id = .ok name) :
    Names.storedName? rows id = .ok (some (scopedName above kind name)) := by
  rw [nameOf] at h
  split at h
  · exact absurd h (by simp)
  · exact absurd h (by simp)
  · rename_i full hfull
    split at h
    · rename_i name' hname
      obtain rfl := Except.ok.inj h
      rw [hfull, (unscopedName?_eq_some_iff above kind full name').mp hname]
    · exact absurd h (by simp)

/-- The bytes of a key are read by the names of its ids, when it has as many ids as the levels of its
kind ask for. -/
theorem read_encode (rows : Rows) {key : Key} {kinds : List Kind}
    (hkinds : key.kind.ancestors = some kinds)
    (hlength : key.ids.length = if key.wildcard then kinds.length else kinds.length + 1) :
    read rows key.encode =
      (namesOf rows key.kind [] kinds key.ids).map fun names =>
        ⟨pathOf key.wildcard names, key.kind⟩ := by
  have hdepth : key.kind.depth = some kinds.length := by rw [Kind.depth, hkinds, Option.map_some]
  rw [read, Key.decode_encode key kinds.length hdepth hlength]
  simp only [ofKey, hkinds]
  cases namesOf rows key.kind [] kinds key.ids <;> rfl

/-- Reading the bytes of a stored key gives the address of the entity. -/
theorem read_storedKey? {rows : Rows} (hrows : Names.Consistent rows) {address : Address} {key : Key}
    (hkey : address.storedKey? rows = some key) (hconcrete : key.wildcard = false) :
    read rows key.encode = .ok address := by
  have hsingle := single_of_storedKey? hkey hconcrete
  obtain ⟨ids, hids, rfl⟩ := (hsingle.storedKey?_eq_some_iff rows key).mp hkey
  have hlength : ids.length = address.kinds.length + 1 := by
    rw [trail?_length hids, hsingle.length_line]
  have hnames : namesOf rows address.kind [] address.kinds ids = .ok address.path.segments := by
    rw [← hsingle.map_snd_line]
    exact namesOf_eq hrows hids ⟨[], by rw [List.append_nil, hsingle.map_fst_line]⟩
  rw [read_encode rows hsingle.ancestors hlength, hnames, Except.map, pathOf,
    if_neg Bool.false_ne_true, Path.ofSegments_segments]

/-- Reading the bytes of a stored wildcard key gives the wildcard back. -/
theorem read_wildcardKey {rows : Rows} (hrows : Names.Consistent rows) {address : Address} {key : Key}
    (hkey : address.storedKey? rows = some key) (hwildcard : key.wildcard = true) :
    read rows key.encode = .ok address := by
  have hfitting := fitting_of_storedKey? hkey
  obtain ⟨ids, hids, rfl⟩ := (hfitting.storedKey?_eq_some_iff rows key).mp hkey
  have hpath : address.path.isWildcard = true := hwildcard
  rw [steps_of_wildcard address hpath] at hids
  have hlength : ids.length = address.kinds.length := by
    rw [trail?_length hids, hfitting.length_levelSteps]
  have hnames : namesOf rows address.kind [] address.kinds ids = .ok address.path.levels := by
    rw [← hfitting.map_snd_levelSteps]
    exact namesOf_eq hrows hids (by rw [hfitting.map_fst_levelSteps]; exact List.prefix_append _ _)
  have hleaf : address.path = .wildcard address.path.levels := by
    rw [Path.wildcard, ← beq_iff_eq.mp hpath]
  rw [keyOf, hpath, read_encode rows hfitting.ancestors hlength, hnames, Except.map, pathOf,
    if_pos rfl, ← hleaf]

/-- Reading the bytes of a stored key gives its address back, be that of one entity or a wildcard. -/
theorem read_of_storedKey? {rows : Rows} (hrows : Names.Consistent rows) {address : Address}
    {key : Key} (hkey : address.storedKey? rows = some key) : read rows key.encode = .ok address := by
  cases hwildcard : key.wildcard with
  | false => exact read_storedKey? hrows hkey hwildcard
  | true => exact read_wildcardKey hrows hkey hwildcard

end Address

end EntityCatalog
