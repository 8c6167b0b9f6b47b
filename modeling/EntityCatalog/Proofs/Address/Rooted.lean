import EntityCatalog.Proofs.Names.Allotment

/-!
# What resolving a path binds

In rooted rows every id in the scope of a bound name has an id row. A fresh id has none, so it is in no
scope: below a name that was not bound nothing is bound in advance. Hence resolving a list of names, of
which the first have a trail and the next one has no id, binds that one and all after it, each in the
scope of the ids just given, and no other name. The trail is left as it is.
-/

namespace EntityCatalog

open Names (Reserved withBinding)

/-- The ids in the scope of a bound name have id rows. -/
def Rooted (rows : Rows) : Prop :=
  ∀ above kind name, rows.get? (Layout.nameKey (scopedName above kind name)) ≠ none →
    ∀ id ∈ above, Reserved rows id

namespace Rooted

variable {rows rows' : Rows} {above : List UInt64} {kind : Kind} {id : UInt64}

/-- Without rows no name is bound within any scope. -/
theorem empty : Rooted Rows.empty := fun _ _ _ h => absurd (Rows.get?_empty _) h

/-- Rows with the same books are rooted together. -/
theorem sameBooks (h : Rooted rows) (hsame : Names.SameBooks rows rows') : Rooted rows' := by
  intro above kind name hname upper hupper
  rw [hsame _ (Layout.isBook_nameKey _)] at hname
  exact (Names.Posted.nothing hsame).reserved (h above kind name hname upper hupper)

/-- A name bound in a scope of reserved ids keeps the rows rooted. -/
theorem withBinding (h : Rooted rows) (habove : ∀ upper ∈ above, Reserved rows upper) {name : String}
    (hname : rows.get? (Layout.nameKey (scopedName above kind name)) = none)
    (hid : rows.get? (Layout.idKey id) = none) :
    Rooted (Names.withBinding rows (scopedName above kind name) id) := by
  intro above' kind' name' hbound upper hupper
  apply (Names.Grows.refl.bind hname hid).reserved
  rw [Names.get?_withBinding, if_neg (Layout.nameKey_ne_idKey _ id).symm] at hbound
  split at hbound
  · rename_i heq
    obtain ⟨rfl, -, -⟩ := scopedName_injective (Layout.nameKey_injective heq)
    exact habove upper hupper
  · exact h above' kind' name' hbound upper hupper

/-- A name moved within its scope keeps the rows rooted. -/
theorem move (h : Rooted rows) (habove : ∀ upper ∈ above, Reserved rows upper) {old new : String}
    (hmoved : Names.Moved rows rows' (scopedName above kind old) (scopedName above kind new) id) :
    Rooted rows' := by
  intro above' kind' name' hbound upper hupper
  apply hmoved.reserved
  rw [hmoved, if_neg (Layout.nameKey_ne_idKey _ id).symm] at hbound
  split at hbound
  · rename_i heq
    obtain ⟨rfl, -, -⟩ := scopedName_injective (Layout.nameKey_injective heq)
    exact habove upper hupper
  · split at hbound
    · exact absurd rfl hbound
    · exact h above' kind' name' hbound upper hupper

/-- Nothing is bound in the scope of a fresh id. -/
theorem unbound_of_fresh (h : Rooted rows) (hid : rows.get? (Layout.idKey id) = none)
    (above : List UInt64) (kind : Kind) (name : String) :
    rows.get? (Layout.nameKey (scopedName (above ++ [id]) kind name)) = none := by
  by_contra hbound
  exact h (above ++ [id]) kind name hbound id (List.mem_append_right _ List.mem_cons_self) hid

/-- A name that is bound to a fresh id leaves everything in the scope of that id unbound. -/
theorem unbound_withBinding (h : Rooted rows) (hid : rows.get? (Layout.idKey id) = none)
    {name : String} (kind' : Kind) (name' : String) :
    (Names.withBinding rows (scopedName above kind name) id).get?
      (Layout.nameKey (scopedName (above ++ [id]) kind' name')) = none := by
  have hne : Layout.nameKey (scopedName above kind name) ≠
      Layout.nameKey (scopedName (above ++ [id]) kind' name') := by
    intro heq
    have hscope := (scopedName_injective (Layout.nameKey_injective heq)).1
    simpa using congrArg List.length hscope
  rw [Names.get?_withBinding, if_neg (Layout.nameKey_ne_idKey _ id).symm, if_neg hne]
  exact h.unbound_of_fresh hid above kind' name'

end Rooted

namespace Names

/-- Binding a name reserves its id. -/
theorem reserved_withBinding (rows : Rows) (name : String) (id : UInt64) :
    Reserved (withBinding rows name id) id := by
  rw [Reserved, get?_withBinding, if_pos rfl]
  exact Option.some_ne_none _

/-- The second rows are the first ones with the rows of new bindings, all of which were free. -/
structure Binds (rows rows' : Rows) (new : List (String × UInt64)) : Prop where
  free : ∀ binding ∈ new, rows.get? (Layout.nameKey binding.1) = none ∧
    rows.get? (Layout.idKey binding.2) = none
  bound : ∀ binding ∈ new, rows'.get? (Layout.nameKey binding.1) = some (wordBytes binding.2) ∧
    rows'.get? (Layout.idKey binding.2) = some (Text.utf8 binding.1)
  kept : ∀ key, (∀ binding ∈ new, key ≠ Layout.nameKey binding.1 ∧ key ≠ Layout.idKey binding.2) →
    rows'.get? key = rows.get? key

namespace Binds

variable {rows rows' : Rows} {new : List (String × UInt64)}

/-- Nothing need be bound to leave the rows as they are. -/
theorem refl (rows : Rows) : Binds rows rows [] :=
  ⟨List.forall_mem_nil _, List.forall_mem_nil _, fun _ _ => rfl⟩

/-- A binding that comes first. -/
theorem cons {name : String} {id : UInt64} (hname : rows.get? (Layout.nameKey name) = none)
    (hid : rows.get? (Layout.idKey id) = none) (h : Binds (withBinding rows name id) rows' new) :
    Binds rows rows' ((name, id) :: new) := by
  have hfirst : Grows rows (withBinding rows name id) := Grows.refl.bind hname hid
  have hnameRow : (withBinding rows name id).get? (Layout.nameKey name) = some (wordBytes id) := by
    rw [get?_withBinding, if_neg (Layout.nameKey_ne_idKey name id).symm, if_pos rfl]
  have hidRow : (withBinding rows name id).get? (Layout.idKey id) = some (Text.utf8 name) := by
    rw [get?_withBinding, if_pos rfl]
  -- A row of the first binding is not free when the others are made.
  have hkept {key bytes : Bytes} (hrow : (withBinding rows name id).get? key = some bytes) :
      rows'.get? key = some bytes := by
    rw [h.kept key fun binding hbinding => ?_, hrow]
    obtain ⟨hfreeName, hfreeId⟩ := h.free binding hbinding
    constructor
    · rintro rfl
      exact absurd (hrow.symm.trans hfreeName) (by simp)
    · rintro rfl
      exact absurd (hrow.symm.trans hfreeId) (by simp)
  refine ⟨List.forall_mem_cons.mpr ⟨⟨hname, hid⟩, fun binding hbinding => ?_⟩,
    List.forall_mem_cons.mpr ⟨⟨hkept hnameRow, hkept hidRow⟩, h.bound⟩, fun key hkey => ?_⟩
  · obtain ⟨hfreeName, hfreeId⟩ := h.free binding hbinding
    exact ⟨hfirst.get?_eq_none hfreeName, hfirst.get?_eq_none hfreeId⟩
  · obtain ⟨⟨hneName, hneId⟩, hrest⟩ := List.forall_mem_cons.mp hkey
    rw [h.kept key hrest, get?_withBinding, if_neg (Ne.symm hneId), if_neg (Ne.symm hneName)]

end Binds

end Names

namespace Address

/-- The names of steps with their own ids, each scoped by the ids before it. -/
def bindings : List (Kind × String) → (above own : List UInt64) → List (String × UInt64)
  | (kind, name) :: rest, above, id :: own =>
    (scopedName above kind name, id) :: bindings rest (above ++ [id]) own
  | _, _, _ => []

/-- The ids of a trail are reserved when those above it are. -/
theorem reserved_of_trail? {rows : Rows} (hrows : Names.Consistent rows)
    {steps : List (Kind × String)} {above ids : List UInt64}
    (habove : ∀ id ∈ above, Reserved rows id) (h : trail? rows steps above = some ids) :
    ∀ id ∈ ids, Reserved rows id := by
  induction steps generalizing above with
  | nil =>
    obtain rfl := Option.some.inj h
    exact habove
  | cons step rest ih =>
    obtain ⟨kind, name⟩ := step
    obtain ⟨id, hid, hrest⟩ := (trail?_cons_eq_some_iff rows kind name rest above ids).mp h
    exact ih (List.forall_mem_append.mpr ⟨habove, List.forall_mem_singleton.mpr (hrows.reserved hid)⟩)
      hrest

/-- Resolving names in turn goes on where resolving the first of them has led. -/
theorem resolveSteps_append (first second : List (Kind × String)) (above : List UInt64)
    (names : Names) :
    resolveSteps (first ++ second) above names =
      match resolveSteps first above names with
      | (.ok ids, names) => resolveSteps second ids names
      | (.error fault, names) => (.error fault, names) := by
  induction first generalizing above names with
  | nil => rfl
  | cons step rest ih =>
    obtain ⟨kind, name⟩ := step
    rw [List.cons_append, resolveSteps, resolveSteps]
    cases names.resolve (scopedName above kind name) with
    | mk answer after =>
      cases answer with
      | error fault => rfl
      | ok id => exact ih (above ++ [id]) after

/-- Resolving names of which the first is not bound binds all of them and nothing else. -/
theorem resolveSteps_binds {names : Names} (h : names.Faithful) (hrows : Names.Consistent names.rows)
    (hrooted : Rooted names.rows) {steps : List (Kind × String)} {above ids : List UInt64}
    (habove : ∀ id ∈ above, Reserved names.rows id)
    (hfirst : ∀ kind name, steps.head? = some (kind, name) →
      names.rows.get? (Layout.nameKey (scopedName above kind name)) = none)
    (hids : (resolveSteps steps above names).1 = .ok ids) :
    ∃ own, ids = above ++ own ∧ own.length = steps.length ∧
      Names.Binds names.rows (resolveSteps steps above names).2.rows (bindings steps above own) := by
  induction steps generalizing names above with
  | nil =>
    obtain rfl := Except.ok.inj hids
    exact ⟨[], (List.append_nil _).symm, rfl, .refl _⟩
  | cons step rest ih =>
    obtain ⟨kind, name⟩ := step
    have hname := hfirst kind name rfl
    have hgrows := (Names.resolve_grows h hrows (scopedName above kind name)).1
    have hfaithful := (Names.resolve_transparent h (scopedName above kind name)).faithful
    have hallots {id : UInt64} (hid : (names.resolve (scopedName above kind name)).1 = .ok id) :=
      Names.resolve_allots h hname hid
    rw [resolveSteps] at hids ⊢
    cases hresolve : names.resolve (scopedName above kind name) with
    | mk answer after =>
      rw [hresolve] at hids hgrows hfaithful hallots
      cases answer with
      | error fault => exact absurd hids (by simp)
      | ok id =>
        obtain ⟨hfresh, hafter⟩ := hallots rfl
        have hid : names.rows.get? (Layout.idKey id) = none := not_not.mp hfresh
        -- What the rest starts from: the fresh id has a row now, and nothing is bound in its scope.
        have hstill : Rooted after.rows := hafter ▸ hrooted.withBinding habove hname hid
        have hbelow : ∀ upper ∈ above ++ [id], Reserved after.rows upper := by
          refine List.forall_mem_append.mpr ⟨fun upper hupper => ?_, ?_⟩
          · exact hgrows.reserved (habove upper hupper)
          · rw [List.forall_mem_singleton, hafter]
            exact Names.reserved_withBinding names.rows _ id
        have hnext : ∀ kind' name', rest.head? = some (kind', name') →
            after.rows.get? (Layout.nameKey (scopedName (above ++ [id]) kind' name')) = none := by
          intro kind' name' _
          rw [hafter]
          exact hrooted.unbound_withBinding hid kind' name'
        obtain ⟨own, hown, hlength, hbinds⟩ :=
          ih hfaithful (hgrows.consistent hrows) hstill hbelow hnext hids
        rw [hafter] at hbinds
        refine ⟨id :: own, ?_, congrArg Nat.succ hlength, hbinds.cons hname hid⟩
        rw [hown, List.append_assoc, List.singleton_append]

/-- Resolving names without a trail binds those that follow the longest trail, and nothing else. -/
theorem resolveSteps_of_missing {names : Names} (h : names.Faithful)
    (hrows : Names.Consistent names.rows) (hrooted : Rooted names.rows)
    {steps : List (Kind × String)} {ids : List UInt64} (hnone : trail? names.rows steps [] = none)
    (hids : (resolveSteps steps [] names).1 = .ok ids) :
    ∃ first kind name rest above own, steps = first ++ (kind, name) :: rest ∧
      trail? names.rows first [] = some above ∧
      names.rows.get? (Layout.nameKey (scopedName above kind name)) = none ∧
      own.length = rest.length + 1 ∧ ids = above ++ own ∧
      Names.Binds names.rows (resolveSteps steps [] names).2.rows
        (bindings ((kind, name) :: rest) above own) := by
  obtain ⟨first, kind, name, rest, above, rfl, habove, hunbound⟩ := exists_unbound_of_trail? hnone
  have hname := (hrows.boundId?_eq_none_iff _).mp hunbound
  have hreserved := reserved_of_trail? hrows (List.forall_mem_nil _) habove
  obtain ⟨hfound, hread⟩ := resolveSteps_of_trail? h hrows habove
  rw [resolveSteps_append] at hids ⊢
  cases hresolve : resolveSteps first [] names with
  | mk answer mid =>
    rw [hresolve] at hfound hread hids
    obtain rfl := hfound
    dsimp only at hread hids ⊢
    have hhead (kind' : Kind) (name' : String)
        (hstep : ((kind, name) :: rest).head? = some (kind', name')) :
        names.rows.get? (Layout.nameKey (scopedName above kind' name')) = none := by
      obtain ⟨rfl, rfl⟩ := Prod.mk.inj (Option.some.inj hstep)
      exact hname
    rw [← hread.rows] at hrows hrooted hreserved hhead
    obtain ⟨own, rfl, hlength, hbinds⟩ :=
      resolveSteps_binds hread.faithful hrows hrooted hreserved hhead hids
    rw [hread.rows] at hbinds
    exact ⟨first, kind, name, rest, above, own, rfl, habove, hname, hlength, rfl, hbinds⟩

/-- Resolving the key of an address that has none binds the names in it that follow the longest trail,
and nothing else. -/
theorem resolveKey_of_missing {names : Names} (h : names.Faithful)
    (hrows : Names.Consistent names.rows) (hrooted : Rooted names.rows) {address : Address} {key : Key}
    (hnone : address.storedKey? names.rows = none) (hkey : (address.resolveKey names).1 = .ok key) :
    ∃ first kind name rest above own,
      address.steps address.kinds = first ++ (kind, name) :: rest ∧
      trail? names.rows first [] = some above ∧
      names.rows.get? (Layout.nameKey (scopedName above kind name)) = none ∧
      own.length = rest.length + 1 ∧ key = address.keyOf (above ++ own) ∧
      Names.Binds names.rows (address.resolveKey names).2.rows
        (bindings ((kind, name) :: rest) above own) := by
  cases hlevels : address.levels with
  | error fault =>
    rw [resolveKey_of_error names hlevels] at hkey
    exact absurd hkey (by simp)
  | ok kinds =>
    obtain rfl := kinds_of_levels hlevels
    rw [(fitting_of_levels hlevels).storedKey?_eq, Option.map_eq_none_iff] at hnone
    have hmissing {ids : List UInt64}
        (hids : (resolveSteps (address.steps address.kinds) [] names).1 = .ok ids) :=
      resolveSteps_of_missing h hrows hrooted hnone hids
    simp only [resolveKey, hlevels] at hkey ⊢
    cases hresolve : resolveSteps (address.steps address.kinds) [] names with
    | mk answer after =>
      rw [hresolve] at hkey hmissing
      cases answer with
      | error fault => exact absurd hkey (by simp)
      | ok ids =>
        obtain ⟨first, kind, name, rest, above, own, hsteps, habove, hname, hlength, rfl, hbinds⟩ :=
          hmissing rfl
        exact ⟨first, kind, name, rest, above, own, hsteps, habove, hname, hlength,
          (Except.ok.inj hkey).symm, hbinds⟩

end Address

end EntityCatalog
