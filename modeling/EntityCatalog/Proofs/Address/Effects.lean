import EntityCatalog.Address
import EntityCatalog.Proofs.Names.Books

/-!
# What finding and resolving write

Whatever the rows hold and whatever is cached, finding names and keys writes nothing, and resolving
them adds rows in pairs, each of which binds a name that had no id.
-/

namespace EntityCatalog

namespace Names

/-- A row stays as the rows grow. -/
theorem Grows.get?_eq_some {rows rows' : Rows} (h : Grows rows rows') {key bytes : Bytes}
    (hrow : rows.get? key = some bytes) : rows'.get? key = some bytes := by
  induction h with
  | refl => exact hrow
  | @bind mid name id _ hname hid ih =>
    have hne {free : Bytes} (hfree : mid.get? free = none) : free ≠ key := by
      rintro rfl
      exact absurd (hfree.symm.trans ih) (by simp)
    rw [get?_withBinding, if_neg (hne hid), if_neg (hne hname), ih]

/-- A row outside the books stays as it is while the rows grow. -/
theorem Grows.get?_of_not_isBook {rows rows' : Rows} (h : Grows rows rows') {key : Bytes}
    (hkey : ¬ Layout.IsBook key) : rows'.get? key = rows.get? key :=
  h.get?_eq (fun name heq => hkey (heq ▸ Layout.isBook_nameKey name))
    fun id heq => hkey (heq ▸ Layout.isBook_idKey id)

/-- The second rows hold every row of the first, and each row that is new is one of a new pair that
binds a name. -/
structure AddsBindings (rows rows' : Rows) : Prop where
  kept : ∀ key bytes, rows.get? key = some bytes → rows'.get? key = some bytes
  paired : ∀ key, rows.get? key = none → rows'.get? key ≠ none →
    ∃ name id, (key = Layout.nameKey name ∨ key = Layout.idKey id) ∧
      rows.get? (Layout.nameKey name) = none ∧ rows.get? (Layout.idKey id) = none ∧
      rows'.get? (Layout.nameKey name) = some (wordBytes id) ∧
      rows'.get? (Layout.idKey id) = some (Text.utf8 name)

/-- A row that is free in rows that grew was free before. -/
theorem Grows.get?_eq_none {rows rows' : Rows} (h : Grows rows rows') {key : Bytes}
    (hfree : rows'.get? key = none) : rows.get? key = none := by
  cases hrow : rows.get? key with
  | none => rfl
  | some bytes => exact absurd ((h.get?_eq_some hrow).symm.trans hfree) (by simp)

/-- Rows grow by pairs. -/
theorem Grows.addsBindings {rows rows' : Rows} (h : Grows rows rows') : AddsBindings rows rows' := by
  refine ⟨fun key bytes => h.get?_eq_some, ?_⟩
  induction h with
  | refl => exact fun key hfree hrow => absurd hfree hrow
  | @bind mid name id hmid hname hid ih =>
    have hlast : Grows mid (withBinding mid name id) := Grows.refl.bind hname hid
    intro key hfree hrow
    rw [get?_withBinding] at hrow
    by_cases hnew : key = Layout.nameKey name ∨ key = Layout.idKey id
    · refine ⟨name, id, hnew, hmid.get?_eq_none hname, hmid.get?_eq_none hid, ?_, ?_⟩
      · rw [get?_withBinding, if_neg (Layout.nameKey_ne_idKey name id).symm, if_pos rfl]
      · rw [get?_withBinding, if_pos rfl]
    · obtain ⟨hneName, hneId⟩ := not_or.mp hnew
      rw [if_neg fun heq => hneId heq.symm, if_neg fun heq => hneName heq.symm] at hrow
      obtain ⟨name', id', hkey, hfreeName, hfreeId, hboundName, hboundId⟩ := ih key hfree hrow
      exact ⟨name', id', hkey, hfreeName, hfreeId, hlast.get?_eq_some hboundName,
        hlast.get?_eq_some hboundId⟩

/-- Finding a name changes no row. -/
theorem rows_find? (names : Names) (name : String) : (names.find? name).2.rows = names.rows := by
  have hlooked := names.rows_lookup name
  rw [find?]
  cases hlookup : names.lookup name with
  | mk found after =>
    rw [hlookup] at hlooked
    cases found with
    | some id => exact hlooked
    | none =>
      dsimp only
      split <;> exact hlooked

/-- Binding a free name adds its pair of rows at most. -/
theorem grows_allocate {name : String} (attempts : Nat) {names : Names}
    (hname : names.rows.get? (Layout.nameKey name) = none) :
    Grows names.rows (allocate name attempts names).2.rows := by
  induction attempts generalizing names with
  | zero => exact .refl
  | succ attempts ih =>
    simp only [allocate, batch_binding]
    by_cases hid : names.rows.get? (Layout.idKey names.ids.peek) = none
    · rw [if_pos ⟨hname, hid⟩]
      exact Grows.refl.bind hname hid
    · rw [if_neg fun hboth => hid hboth.2]
      exact @ih { names with ids := names.ids.advance } hname

/-- Resolving a name adds its pair of rows at most. -/
theorem grows_resolve (names : Names) (name : String) :
    Grows names.rows (names.resolve name).2.rows := by
  have hlooked := names.rows_lookup name
  rw [resolve]
  cases hlookup : names.lookup name with
  | mk found after =>
    rw [hlookup] at hlooked
    rw [← hlooked]
    cases found with
    | some id => exact .refl
    | none =>
      dsimp only
      split
      · exact .refl
      · exact .refl
      · rename_i hstored
        exact grows_allocate maxAttempts ((storedId?_eq_none_iff _ _).mp hstored)

end Names

namespace Address

/-- Finding names in turn changes no row. -/
theorem rows_findSteps (steps : List (Kind × String)) (above : List UInt64) (names : Names) :
    (findSteps steps above names).2.rows = names.rows := by
  induction steps generalizing above names with
  | nil => rfl
  | cons step rest ih =>
    obtain ⟨kind, name⟩ := step
    have hfound := names.rows_find? (scopedName above kind name)
    rw [findSteps]
    cases hfind : names.find? (scopedName above kind name) with
    | mk answer after =>
      rw [hfind] at hfound
      cases answer with
      | error fault => exact hfound
      | ok id =>
        cases id with
        | none => exact hfound
        | some id => exact (ih (above ++ [id]) after).trans hfound

/-- Finding the key of an address changes no row. -/
theorem rows_findKey (address : Address) (names : Names) :
    (address.findKey names).2.rows = names.rows := by
  rw [findKey]
  split
  · rfl
  · rename_i kinds _
    have hsteps := rows_findSteps (address.steps kinds) [] names
    split <;> rename_i hfind <;> rw [hfind] at hsteps <;> exact hsteps

/-- Finding the scoped name of an address changes no row. -/
theorem rows_findName (address : Address) (names : Names) :
    (address.findName names).2.rows = names.rows := by
  rw [findName]
  split
  · rfl
  · rename_i kinds _
    split
    · rfl
    · have hsteps := rows_findSteps (address.levelSteps kinds) [] names
      split <;> rename_i hfind <;> rw [hfind] at hsteps <;> exact hsteps

/-- A key that is found is one of the address. -/
theorem keyOf_of_findKey {address : Address} {names : Names} {key : Key}
    (h : (address.findKey names).1 = .ok (some key)) : ∃ ids, key = address.keyOf ids := by
  rw [findKey] at h
  split at h
  · exact absurd h (by simp)
  · split at h
    · exact ⟨_, (Option.some.inj (Except.ok.inj h)).symm⟩
    · exact absurd h (by simp)
    · exact absurd h (by simp)

/-- Resolving names in turn adds pairs of rows at most. -/
theorem grows_resolveSteps (steps : List (Kind × String)) (above : List UInt64) (names : Names) :
    Names.Grows names.rows (resolveSteps steps above names).2.rows := by
  induction steps generalizing above names with
  | nil => exact .refl
  | cons step rest ih =>
    obtain ⟨kind, name⟩ := step
    have hgrows := names.grows_resolve (scopedName above kind name)
    rw [resolveSteps]
    cases hresolve : names.resolve (scopedName above kind name) with
    | mk answer after =>
      rw [hresolve] at hgrows
      cases answer with
      | error fault => exact hgrows
      | ok id => exact hgrows.trans (ih (above ++ [id]) after)

/-- Resolving the key of an address adds pairs of rows at most. -/
theorem grows_resolveKey (address : Address) (names : Names) :
    Names.Grows names.rows (address.resolveKey names).2.rows := by
  rw [resolveKey]
  split
  · exact .refl
  · rename_i kinds _
    have hsteps := grows_resolveSteps (address.steps kinds) [] names
    split <;> rename_i hresolve <;> rw [hresolve] at hsteps <;> exact hsteps

end Address

end EntityCatalog
