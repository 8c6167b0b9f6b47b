import EntityCatalog.Address
import EntityCatalog.Proofs.Key.Scope
import EntityCatalog.Proofs.Names.Move

/-!
# The trail of an address

The ids in the key of an address are found from the top down, each within the scope of the ids
above it. The trail of a list of names is the ids that the name rows bind them to in this way. In
consistent rows different names have different trails, and one trail starts with another exactly
when its names do.

When name rows change, a trail stays the same unless it goes through a name whose row changed.
-/

namespace EntityCatalog

namespace Address

/-- The ids of names in turn after the ids above them, if every name is bound in its scope. -/
def trail? (rows : Rows) : (steps : List (Kind × String)) → (above : List UInt64) →
    Option (List UInt64)
  | [], above => some above
  | (kind, name) :: rest, above =>
    match Names.boundId? rows (scopedName above kind name) with
    | some id => trail? rows rest (above ++ [id])
    | none => none

/-- The names and ids of a step in a trail. -/
theorem trail?_cons_eq_some_iff (rows : Rows) (kind : Kind) (name : String)
    (rest : List (Kind × String)) (above ids : List UInt64) :
    trail? rows ((kind, name) :: rest) above = some ids ↔
      ∃ id, Names.boundId? rows (scopedName above kind name) = some id ∧
        trail? rows rest (above ++ [id]) = some ids := by
  rw [trail?]
  cases Names.boundId? rows (scopedName above kind name) <;> simp

/-- A trail over two stretches of steps follows the first and goes on with the second. -/
theorem trail?_append (rows : Rows) (first second : List (Kind × String)) (above : List UInt64) :
    trail? rows (first ++ second) above = (trail? rows first above).bind (trail? rows second) := by
  induction first generalizing above with
  | nil => rfl
  | cons step rest ih =>
    obtain ⟨kind, name⟩ := step
    rw [List.cons_append, trail?, trail?]
    cases Names.boundId? rows (scopedName above kind name) with
    | none => rfl
    | some id => exact ih (above ++ [id])

/-- A trail goes on from the ids above it, by one id for each name. -/
theorem trail?_eq_append {rows : Rows} {steps : List (Kind × String)} {above ids : List UInt64}
    (h : trail? rows steps above = some ids) :
    ∃ own, ids = above ++ own ∧ own.length = steps.length := by
  induction steps generalizing above with
  | nil => exact ⟨[], by rw [List.append_nil, Option.some.inj h], rfl⟩
  | cons step rest ih =>
    obtain ⟨kind, name⟩ := step
    obtain ⟨id, -, hrest⟩ := (trail?_cons_eq_some_iff rows kind name rest above ids).mp h
    obtain ⟨own, rfl, hlength⟩ := ih hrest
    exact ⟨id :: own, by rw [List.append_assoc, List.singleton_append], by
      rw [List.length_cons, List.length_cons, hlength]⟩

/-- A trail from the root has one id for each of its steps. -/
theorem trail?_length {rows : Rows} {steps : List (Kind × String)} {ids : List UInt64}
    (h : trail? rows steps [] = some ids) : ids.length = steps.length := by
  obtain ⟨own, rfl, hlength⟩ := trail?_eq_append h
  exact hlength

/-- The first names of a trail have a trail of their own, with which it starts. -/
theorem trail?_of_prefix {rows : Rows} {steps steps' : List (Kind × String)}
    {above ids' : List UInt64} (hsteps : steps <+: steps')
    (h : trail? rows steps' above = some ids') :
    ∃ ids, trail? rows steps above = some ids ∧ ids <+: ids' := by
  obtain ⟨rest, rfl⟩ := hsteps
  rw [trail?_append, Option.bind_eq_some_iff] at h
  obtain ⟨ids, hids, hrest⟩ := h
  obtain ⟨own, rfl, -⟩ := trail?_eq_append hrest
  exact ⟨ids, hids, own, rfl⟩

/-- In consistent rows, names whose ids start a trail are the first names of the trail. -/
theorem prefix_of_trail?_prefix {rows : Rows} (hrows : Names.Consistent rows)
    {steps steps' : List (Kind × String)} {above ids ids' : List UInt64}
    (h : trail? rows steps above = some ids) (h' : trail? rows steps' above = some ids')
    (hids : ids <+: ids') : steps <+: steps' := by
  induction steps generalizing steps' above with
  | nil => exact List.nil_prefix
  | cons step rest ih =>
    obtain ⟨kind, name⟩ := step
    obtain ⟨id, hbound, hrest⟩ := (trail?_cons_eq_some_iff rows kind name rest above ids).mp h
    obtain ⟨own, rfl, -⟩ := trail?_eq_append hrest
    cases steps' with
    | nil =>
      -- The trail of no names ends before the id of the first name.
      obtain rfl := Option.some.inj h'
      have hlength := hids.length_le
      simp only [List.length_append, List.length_singleton] at hlength
      omega
    | cons step' rest' =>
      obtain ⟨kind', name'⟩ := step'
      obtain ⟨id', hbound', hrest'⟩ :=
        (trail?_cons_eq_some_iff rows kind' name' rest' above ids').mp h'
      obtain ⟨own', rfl, -⟩ := trail?_eq_append hrest'
      have hhead : id = id' := by
        rw [List.append_assoc, List.append_assoc, List.prefix_append_right_inj,
          List.singleton_append, List.singleton_append, List.cons_prefix_cons] at hids
        exact hids.1
      subst hhead
      obtain ⟨-, rfl, rfl⟩ := scopedName_injective (hrows.name_unique hbound hbound')
      exact List.cons_prefix_cons.mpr ⟨rfl, ih hrest hrest'⟩

/-- In consistent rows, different names have different trails. -/
theorem trail?_injective {rows : Rows} (hrows : Names.Consistent rows)
    {steps steps' : List (Kind × String)} {above ids : List UInt64}
    (h : trail? rows steps above = some ids) (h' : trail? rows steps' above = some ids) :
    steps = steps' := by
  have hle := prefix_of_trail?_prefix hrows h h' (List.prefix_refl ids)
  have hge := prefix_of_trail?_prefix hrows h' h (List.prefix_refl ids)
  exact hle.eq_of_length (Nat.le_antisymm hle.length_le hge.length_le)

/-- A trail depends on the name rows alone. -/
theorem trail?_congr {rows rows' : Rows}
    (h : ∀ name, rows'.get? (Layout.nameKey name) = rows.get? (Layout.nameKey name))
    (steps : List (Kind × String)) (above : List UInt64) :
    trail? rows' steps above = trail? rows steps above := by
  induction steps generalizing above with
  | nil => rfl
  | cons step rest ih =>
    obtain ⟨kind, name⟩ := step
    rw [trail?, trail?, Names.boundId?_congr (h _)]
    cases Names.boundId? rows (scopedName above kind name) with
    | none => rfl
    | some id => exact ih (above ++ [id])

/-- A trail stays when all names keep their ids. -/
theorem trail?_mono {rows rows' : Rows}
    (h : ∀ name id, Names.boundId? rows name = some id → Names.boundId? rows' name = some id)
    {steps : List (Kind × String)} {above ids : List UInt64}
    (htrail : trail? rows steps above = some ids) : trail? rows' steps above = some ids := by
  induction steps generalizing above with
  | nil => exact htrail
  | cons step rest ih =>
    obtain ⟨kind, name⟩ := step
    rw [trail?_cons_eq_some_iff] at htrail ⊢
    obtain ⟨id, hid, hrest⟩ := htrail
    exact ⟨id, h _ id hid, ih hrest⟩

/-- A trail that does not go through a changed name row stays; otherwise it has a first part whose
next name is scoped to a name that was changed. -/
theorem trail?_eq_or_split {rows rows' : Rows} (changed : String → Prop)
    (h : ∀ name, ¬ changed name → Names.boundId? rows' name = Names.boundId? rows name)
    (steps : List (Kind × String)) (above : List UInt64) :
    trail? rows' steps above = trail? rows steps above ∨
      ∃ first kind name rest ids, steps = first ++ (kind, name) :: rest ∧
        trail? rows first above = some ids ∧ trail? rows' first above = some ids ∧
        changed (scopedName ids kind name) := by
  induction steps generalizing above with
  | nil => exact Or.inl rfl
  | cons step rest ih =>
    obtain ⟨kind, name⟩ := step
    by_cases hchanged : changed (scopedName above kind name)
    · exact Or.inr ⟨[], kind, name, rest, above, rfl, rfl, rfl, hchanged⟩
    · have hbound := h _ hchanged
      cases hid : Names.boundId? rows (scopedName above kind name) with
      | none => exact Or.inl (by simp [trail?, hbound, hid])
      | some id =>
        rw [hid] at hbound
        rcases ih (above ++ [id]) with heq | ⟨first, kind', name', rest', ids, rfl, hids, hids', hnext⟩
        · exact Or.inl (by simpa [trail?, hbound, hid] using heq)
        · refine Or.inr ⟨(kind, name) :: first, kind', name', rest', ids, rfl, ?_, ?_, hnext⟩
          · exact (trail?_cons_eq_some_iff rows kind name first above ids).mpr ⟨id, hid, hids⟩
          · exact (trail?_cons_eq_some_iff rows' kind name first above ids).mpr ⟨id, hbound, hids'⟩

/-- Names without a trail have a first part with one, after which comes a name that is not bound. -/
theorem exists_unbound_of_trail? {rows : Rows} {steps : List (Kind × String)} {above : List UInt64}
    (h : trail? rows steps above = none) :
    ∃ first kind name rest ids, steps = first ++ (kind, name) :: rest ∧
      trail? rows first above = some ids ∧
      Names.boundId? rows (scopedName ids kind name) = none := by
  induction steps generalizing above with
  | nil => exact absurd h (by simp [trail?])
  | cons step rest ih =>
    obtain ⟨kind, name⟩ := step
    cases hid : Names.boundId? rows (scopedName above kind name) with
    | none => exact ⟨[], kind, name, rest, above, rfl, rfl, hid⟩
    | some id =>
      rw [trail?, hid] at h
      obtain ⟨first, kind', name', rest', ids, rfl, hids, hnext⟩ := ih h
      exact ⟨(kind, name) :: first, kind', name', rest', ids, rfl,
        (trail?_cons_eq_some_iff rows kind name first above ids).mpr ⟨id, hid, hids⟩, hnext⟩

end Address

end EntityCatalog
