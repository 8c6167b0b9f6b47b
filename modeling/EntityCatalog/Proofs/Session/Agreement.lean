import EntityCatalog.Proofs.Session.Calls

/-!
# Finding a key and resolving it

The key of an address is found and resolved by two walks down its levels. They refuse the same addresses
for the same fault. Where one finds a key the other gives it and leaves everything alone, and where
nothing is found the other binds exactly the names that are missing: the first name without an id on the
way down and all names below it. This asks for rooted rows, as those of a session are. In others a fresh
id might already be in the scope of a bound name, and some of the names below would have ids in advance.
-/

namespace EntityCatalog

/-- What the checks of a path find wrong with an address, in the order in which they look. -/
inductive Address.Misfit (address : Address) : Error → Prop where
  | kind (hkind : address.kind.ancestors = none) : Misfit address (.unsupportedKind address.kind)
  | depth (kinds : List Kind) (hkind : address.kind.ancestors = some kinds)
      (hdepth : address.path.levels.length ≠ kinds.length) :
      Misfit address (.wrongDepth address.kind kinds.length address.path.levels.length)
  | level (kinds : List Kind) (hkind : address.kind.ancestors = some kinds)
      (hdepth : address.path.levels.length = kinds.length)
      (hvague : "" ∈ address.path.levels ∨ wildcardName ∈ address.path.levels) :
      Misfit address (.invalidArgument (.vagueNamespace address.path))
  | leaf (kinds : List Kind) (hkind : address.kind.ancestors = some kinds)
      (hdepth : address.path.levels.length = kinds.length)
      (hlevels : "" ∉ address.path.levels ∧ wildcardName ∉ address.path.levels)
      (hleaf : address.path.leaf = "") : Misfit address (.invalidArgument .emptyName)

namespace Address

/-- All names are concrete exactly if neither the empty name nor the wildcard is among them. -/
theorem all_isConcrete_iff (names : List String) :
    names.all isConcrete = true ↔ "" ∉ names ∧ wildcardName ∉ names := by
  simp only [List.all_eq_true, isConcrete, Bool.and_eq_true, bne_iff_ne]
  constructor
  · intro h
    exact ⟨fun hmem => (h _ hmem).1 rfl, fun hmem => (h _ hmem).2 rfl⟩
  · rintro ⟨hempty, hwildcard⟩ name hname
    exact ⟨fun heq => hempty (heq ▸ hname), fun heq => hwildcard (heq ▸ hname)⟩

variable {address : Address} {fault : Error}

/-- What is wrong with an address makes the checks fail. -/
theorem Misfit.levels_eq (h : address.Misfit fault) : address.levels = .error fault := by
  rw [levels]
  cases h with
  | kind hkind => rw [hkind]
  | depth kinds hkind hdepth =>
    rw [hkind]
    exact if_pos hdepth
  | level kinds hkind hdepth hvague =>
    have hall : address.path.levels.all isConcrete = false := by
      rw [Bool.eq_false_iff, ne_eq, all_isConcrete_iff, not_and_or, not_not, not_not]
      exact hvague
    simp [hkind, hdepth, hall]
  | leaf kinds hkind hdepth hlevels hleaf =>
    have hall := (all_isConcrete_iff _).mpr hlevels
    simp [hkind, hdepth, hall, hleaf]

/-- Something is wrong with an address that does not pass the checks. -/
theorem exists_misfit (h : ∀ kinds, address.levels ≠ .ok kinds) : ∃ fault, address.Misfit fault := by
  cases hkind : address.kind.ancestors with
  | none => exact ⟨_, .kind hkind⟩
  | some kinds =>
    by_cases hdepth : address.path.levels.length = kinds.length
    · by_cases hvague : "" ∈ address.path.levels ∨ wildcardName ∈ address.path.levels
      · exact ⟨_, .level kinds hkind hdepth hvague⟩
      · have hclear := not_or.mp hvague
        have hall := (all_isConcrete_iff _).mpr hclear
        have hleaf : address.path.leaf = "" := by
          by_contra hleaf
          exact h kinds ((levels_eq_ok_iff address kinds).mpr ⟨hkind, hdepth, hall, hleaf⟩)
        exact ⟨_, .leaf kinds hkind hdepth hclear hleaf⟩
    · exact ⟨_, .depth kinds hkind hdepth⟩

/-- The checks of a path fail for what is wrong with the address. -/
theorem levels_eq_error_iff (address : Address) (fault : Error) :
    address.levels = .error fault ↔ address.Misfit fault := by
  refine ⟨fun h => ?_, Misfit.levels_eq⟩
  obtain ⟨fault', hmisfit⟩ := exists_misfit fun kinds hok => absurd (hok.symm.trans h) (by simp)
  rwa [Except.error.inj (h.symm.trans hmisfit.levels_eq)]

end Address

namespace Session

/-- In any session, an address at fault is refused with the same fault whether its key is looked for or
resolved, and the registry is left as it was. A key that is found is the one that is resolved, without a
draw or a change of rows. If none is found and one is resolved, the names in it that follow the longest
trail are bound to ids of their own, and no other row is written. A key that was resolved is found from
then on. Looking for a key never draws an id nor changes a row. -/
theorem resolveKey_agrees_findKey (config : Config) (ids : IdSource) (clock : Clock) (refusals : Nat)
    (calls : List Call) (address : Address) :
    let names := (callAll calls (create config .empty ids clock refusals)).names
    let found := address.findKey names
    let resolved := address.resolveKey names
    (∀ fault, address.Misfit fault →
      found = (.error fault, names) ∧ resolved = (.error fault, names)) ∧
    (∀ key, found.1 = .ok (some key) →
      resolved.1 = .ok key ∧ resolved.2.ids = names.ids ∧ resolved.2.rows = names.rows) ∧
    (∀ key, found.1 = .ok none → resolved.1 = .ok key → ∃ first kind name rest above own,
      (address.kinds ++ [address.kind]).zip
          (if address.path.isWildcard then address.path.levels else address.path.segments) =
        first ++ (kind, name) :: rest ∧
      Address.trail? names.rows first [] = some above ∧
      names.rows.get? (Layout.nameKey (scopedName above kind name)) = none ∧
      own.length = rest.length + 1 ∧
      key = ⟨address.kind, above ++ own, address.path.isWildcard⟩ ∧
      Names.Binds names.rows resolved.2.rows
        (Address.bindings ((kind, name) :: rest) above own)) ∧
    (∀ key, resolved.1 = .ok key → (address.findKey resolved.2).1 = .ok (some key)) ∧
    found.2.ids = names.ids ∧ found.2.rows = names.rows := by
  intro names found resolved
  have hfirst := Sound.create config .empty ids clock refusals
  have hsound := hfirst.callAll calls
  have hrooted : Rooted names.rows := Upheld.rooted_rows.callAll hfirst .empty calls
  have hfaithful : names.Faithful := hsound.faithful
  have hrows : Names.Consistent names.rows := hsound.kept.consistent
  obtain ⟨hgrows, hafter, hstored⟩ := Address.resolveKey_grows hfaithful hrows address
  have hread := Address.findKey_read hfaithful hrows address
  refine ⟨fun fault hmisfit => ?_, fun key hfound => ?_, fun key hnone hresolved => ?_,
    fun key hresolved => ?_, hread.ids, hread.rows⟩
  · have hlevels := (address.levels_eq_error_iff fault).mpr hmisfit
    exact ⟨Address.findKey_of_error names hlevels, Address.resolveKey_of_error names hlevels⟩
  · have hkey := (Address.findKey_eq_ok_some_iff hfaithful hrows address key).mp hfound
    obtain ⟨hanswer, hsame⟩ := Address.resolveKey_of_storedKey? hfaithful hrows hkey
    exact ⟨hanswer, hsame.ids, hsame.rows⟩
  · cases hlevels : address.levels with
    | error fault =>
      have hfault : resolved = (.error fault, names) := Address.resolveKey_of_error names hlevels
      rw [hfault] at hresolved
      exact absurd hresolved (by simp)
    | ok kinds =>
      have hmissing := Except.ok.inj ((Address.findKey_eq hfaithful hrows hlevels).1.symm.trans hnone)
      rw [← (Address.fitting_of_levels hlevels).steps_eq_zip]
      exact Address.resolveKey_of_missing hfaithful hrows hrooted hmissing hresolved
  · exact (Address.findKey_eq_ok_some_iff hafter (hgrows.consistent hrows) address key).mpr
      (hstored key hresolved)

/-- A session in which a metalake has an id, and whose source goes on with ids that repeat. -/
def halfMapped : Session :=
  callAll [.act (.encode Catalog.lake)]
    (create {} .empty (.listed [5, 5, 7, 7, 9]) (.constant 0) 0)

/-- A schema of a catalog in that metalake. Neither has an id. -/
def unmappedSchema : Address := ⟨⟨["lake", "cat"], "s"⟩, .schema⟩

/-- A wildcard level is refused either way, and a half-mapped address gets only the ids that it lacks.
-/
theorem resolveKey_agrees_findKey_halfMapped :
    (Address.findKey ⟨⟨["*"], "cat"⟩, .catalog⟩ halfMapped.names =
        (.error (.invalidArgument (.vagueNamespace ⟨["*"], "cat"⟩)), halfMapped.names)) ∧
      ((unmappedSchema.findKey halfMapped.names).1 = .ok none ∧
        (unmappedSchema.resolveKey halfMapped.names).1 = .ok ⟨.schema, [5, 7, 9], false⟩ ∧
        Names.Binds halfMapped.names.rows (unmappedSchema.resolveKey halfMapped.names).2.rows
          [("5/ca:cat", 7), ("5/7/sc:s", 9)]) ∧
      let after := (unmappedSchema.resolveKey halfMapped.names).2
      (unmappedSchema.findKey after).1 = .ok (some ⟨.schema, [5, 7, 9], false⟩) := by
  have hagrees := resolveKey_agrees_findKey {} (.listed [5, 5, 7, 7, 9]) (.constant 0) 0
    [.act (.encode Catalog.lake)]
  obtain ⟨hmisfit, -⟩ := hagrees ⟨⟨["*"], "cat"⟩, .catalog⟩
  have hvague : Address.Misfit ⟨⟨["*"], "cat"⟩, .catalog⟩ _ :=
    .level [.metalake] rfl rfl (Or.inr (by decide))
  obtain ⟨-, -, hmissing, hstored, -⟩ := hagrees unmappedSchema
  have hnone : (unmappedSchema.findKey halfMapped.names).1 = .ok none := by rfl
  have hkey : (unmappedSchema.resolveKey halfMapped.names).1 = .ok ⟨.schema, [5, 7, 9], false⟩ := by rfl
  obtain ⟨first, kind, name, rest, above, own, hsteps, habove, hname, -, hids, hbinds⟩ :=
    hmissing _ hnone hkey
  have hline : [(.metalake, "lake"), (.catalog, "cat"), (.schema, "s")] =
      first ++ (kind, name) :: rest := hsteps
  refine ⟨(hmisfit _ hvague).1, ⟨hnone, hkey, ?_⟩, hstored _ hkey⟩
  -- The first part with a trail is the metalake: it has an id, and the catalog has none.
  rcases first with _ | ⟨one, _ | ⟨two, more⟩⟩
  · obtain ⟨hstep, -⟩ := List.cons.inj hline
    obtain ⟨rfl, rfl⟩ := Prod.mk.inj hstep
    obtain rfl := Option.some.inj habove
    have hbound : halfMapped.names.rows.get? (Layout.nameKey "ml:lake") = some (wordBytes 5) := by rfl
    exact absurd (hbound.symm.trans hname) (by simp)
  · obtain ⟨rfl, hrest⟩ := List.cons.inj hline
    obtain ⟨hstep, rfl⟩ := List.cons.inj hrest
    obtain ⟨rfl, rfl⟩ := Prod.mk.inj hstep
    have htrail : Address.trail? halfMapped.names.rows [(.metalake, "lake")] [] = some [5] := by rfl
    obtain rfl := Option.some.inj (htrail.symm.trans habove)
    obtain rfl : [7, 9] = own := (List.cons.inj (Key.mk.inj hids).2.1).2
    exact hbinds
  · obtain ⟨rfl, hrest⟩ := List.cons.inj hline
    obtain ⟨rfl, -⟩ := List.cons.inj hrest
    have htrail : Address.trail? halfMapped.names.rows
        ((.metalake, "lake") :: (.catalog, "cat") :: more) [] = none := by rfl
    exact absurd (htrail.symm.trans habove) (by simp)

end Session

end EntityCatalog
