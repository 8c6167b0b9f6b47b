import EntityCatalog.Proofs.Catalog.Kept

/-!
# Renaming an entity with everything beneath it

A rename moves one binding, from the scoped name of the entity to its new scoped name in the same
scope. Trails that went through the old name now go through the new one, and reach the same ids. No
key changes, so the records at the address and beneath it are found at the new address and beneath
that.

A trail that went through the new name before is lost, and the ids on it lead nowhere. Every key
with such ids is that of the new address or lies beneath it, so no entity is stranded if there was
none at the new address and beneath it.
-/

namespace EntityCatalog

namespace Address

/-- The address of an entity under another name. -/
def renamed (address : Address) (name : String) : Address :=
  ⟨address.path.withName name, address.kind⟩

/-- The rows after the id of an entity was moved to another name in the scope of its levels. -/
structure Rebound (rows rows' : Rows) (address : Address) (name : String) (above : List UInt64)
    (id : UInt64) : Prop where
  single : address.Single
  concrete : isConcrete name = true
  levels : trail? rows (address.levelSteps address.kinds) [] = some above
  bound : Names.boundId? rows (scopedName above address.kind address.path.leaf) = some id
  moved : Names.Moved rows rows' (scopedName above address.kind address.path.leaf)
    (scopedName above address.kind name) id

/-- An entity has as many levels as names for them. -/
theorem Single.length_levelSteps {address : Address} (h : address.Single) :
    (address.levelSteps address.kinds).length = address.path.levels.length := by
  rw [levelSteps, List.length_zip, h.length_levels, Nat.min_self]

/-- An address of a single entity is one under any other concrete name. -/
theorem Single.renamed {address : Address} (h : address.Single) {name : String}
    (hname : isConcrete name = true) : (address.renamed name).Single := by
  rw [Address.renamed, ← withSegment_leaf]
  exact h.withSegment _ hname

/-- A line leads over the levels to the leaf. -/
theorem line_eq (address : Address) :
    address.line = address.levelSteps address.kinds ++ [(address.kind, address.path.leaf)] := rfl

/-- Under another name the line ends with that name. -/
theorem line_renamed (address : Address) (name : String) :
    (address.renamed name).line =
      address.levelSteps address.kinds ++ [(address.kind, name)] := rfl

/-- The scoped name of an entity that is there, and the id that it is bound to. -/
theorem exists_bound {rows : Rows} {address : Address} {key : Key} (hsingle : address.Single)
    (hkey : address.storedKey? rows = some key) :
    ∃ above id, trail? rows (address.levelSteps address.kinds) [] = some above ∧
      Names.boundId? rows (scopedName above address.kind address.path.leaf) = some id := by
  obtain ⟨ids, hids, -⟩ := (hsingle.storedKey?_eq_some_iff rows key).mp hkey
  rw [line_eq, trail?_append, Option.bind_eq_some_iff] at hids
  obtain ⟨above, habove, hleaf⟩ := hids
  obtain ⟨id, hid, -⟩ := (trail?_cons_eq_some_iff rows _ _ [] above ids).mp hleaf
  exact ⟨above, id, habove, hid⟩

namespace Rebound

variable {rows rows' : Rows} {address : Address} {name : String} {above : List UInt64} {id : UInt64}

/-- Names other than the old and the new one keep their ids. -/
theorem boundId?_eq (h : Rebound rows rows' address name above id) (other : String)
    (hother : ¬ ∃ leaf, (leaf = address.path.leaf ∨ leaf = name) ∧
      other = scopedName above address.kind leaf) :
    Names.boundId? rows' other = Names.boundId? rows other := by
  rw [h.moved.boundId?_eq, if_neg fun heq => hother ⟨name, Or.inr rfl, heq.symm⟩,
    if_neg fun heq => hother ⟨address.path.leaf, Or.inl rfl, heq.symm⟩]

/-- A trail changes only when it reaches the ids of the levels and goes on with the old or the new
name. -/
theorem trail?_eq_or_split (h : Rebound rows rows' address name above id)
    (steps : List (Kind × String)) (scope : List UInt64) :
    trail? rows' steps scope = trail? rows steps scope ∨
      ∃ first leaf rest, steps = first ++ (address.kind, leaf) :: rest ∧
        trail? rows first scope = some above ∧ (leaf = address.path.leaf ∨ leaf = name) := by
  rcases Address.trail?_eq_or_split _ h.boundId?_eq steps scope with
    heq | ⟨first, kind, leaf, rest, ids, hsteps, hids, -, leaf', hleaf, hname⟩
  · exact Or.inl heq
  · obtain ⟨rfl, rfl, rfl⟩ := scopedName_injective hname
    exact Or.inr ⟨first, leaf, rest, hsteps, hids, hleaf⟩

/-- The levels of the entity keep their trail, which ends before its own name. -/
theorem trail?_levelSteps (h : Rebound rows rows' address name above id) :
    trail? rows' (address.levelSteps address.kinds) [] = some above := by
  rw [← h.levels]
  rcases h.trail?_eq_or_split (address.levelSteps address.kinds) [] with
    heq | ⟨first, leaf, rest, hsteps, hfirst, -⟩
  · exact heq
  · have hlength := trail?_length h.levels
    rw [trail?_length hfirst, hsteps, List.length_append, List.length_cons] at hlength
    omega

/-- Trails beneath the entity stay, for they start below the scope of its own name. -/
theorem trail?_beneath (h : Rebound rows rows' address name above id) (rest : List (Kind × String)) :
    trail? rows' rest (above ++ [id]) = trail? rows rest (above ++ [id]) := by
  rcases h.trail?_eq_or_split rest (above ++ [id]) with heq | ⟨first, leaf, rest', -, hfirst, -⟩
  · exact heq
  · obtain ⟨own, hown, -⟩ := trail?_eq_append hfirst
    have hlength := congrArg List.length hown
    simp only [List.length_append, List.length_singleton] at hlength
    omega

/-- The trail through the new name is the one that went through the old name. -/
theorem trail?_new (h : Rebound rows rows' address name above id) (rest : List (Kind × String)) :
    trail? rows' (address.levelSteps address.kinds ++ (address.kind, name) :: rest) [] =
      trail? rows (address.levelSteps address.kinds ++ (address.kind, address.path.leaf) :: rest) [] := by
  have hbound := h.moved.boundId?_eq (scopedName above address.kind name)
  rw [if_pos rfl] at hbound
  rw [trail?_append, trail?_append, h.trail?_levelSteps, h.levels, Option.bind_some, Option.bind_some,
    trail?, trail?, hbound, h.bound]
  exact h.trail?_beneath rest

/-- No trail goes through the old name any more. -/
theorem trail?_old (h : Rebound rows rows' address name above id) (hne : name ≠ address.path.leaf)
    (rest : List (Kind × String)) :
    trail? rows' (address.levelSteps address.kinds ++ (address.kind, address.path.leaf) :: rest) [] =
      none := by
  have hscoped : scopedName above address.kind name ≠
      scopedName above address.kind address.path.leaf :=
    fun heq => hne (scopedName_injective heq).2.2
  have hbound := h.moved.boundId?_eq (scopedName above address.kind address.path.leaf)
  rw [if_neg hscoped, if_pos rfl] at hbound
  rw [trail?_append, h.trail?_levelSteps, Option.bind_some, trail?, hbound]

/-- Every other trail stays. -/
theorem trail?_other (h : Rebound rows rows' address name above id) (hrows : Names.Consistent rows)
    {steps : List (Kind × String)} (hold : ¬ address.line <+: steps)
    (hnew : ¬ (address.renamed name).line <+: steps) :
    trail? rows' steps [] = trail? rows steps [] := by
  rcases h.trail?_eq_or_split steps [] with heq | ⟨first, leaf, rest, hsteps, hfirst, hleaf⟩
  · exact heq
  · obtain rfl := trail?_injective hrows hfirst h.levels
    have hstem : address.levelSteps address.kinds ++ [(address.kind, leaf)] <+: steps :=
      ⟨rest, by rw [hsteps, List.append_assoc, List.singleton_append]⟩
    rcases hleaf with rfl | rfl
    · exact absurd hstem hold
    · exact absurd hstem hnew

/-- At the new address and beneath it are the keys that were at the old address and beneath it. -/
theorem storedKey?_new (h : Rebound rows rows' address name above id) {other : Address}
    (hother : other.Fitting) (hnew : (address.renamed name).line <+: other.steps other.kinds) :
    other.storedKey? rows' =
      (other.withSegment address.path.levels.length address.path.leaf).storedKey? rows := by
  obtain ⟨rest, hrest⟩ := hnew
  rw [line_renamed, List.append_assoc, List.singleton_append] at hrest
  obtain ⟨hback, hsteps, hwildcard⟩ := hother.withSegment h.single.isConcrete_leaf hrest.symm
  rw [h.single.length_levelSteps] at hback hsteps hwildcard
  rw [hother.storedKey?_eq, hback.storedKey?_eq, kinds_withSegment, hsteps, ← hrest, h.trail?_new,
    keyOf_withSegment hwildcard]

/-- An address that goes through the old name passes the checks with the new name, too. -/
theorem fitting_moved (h : Rebound rows rows' address name above id) {other : Address}
    (hother : other.Fitting) (hold : address.line <+: other.steps other.kinds) :
    (other.withSegment address.path.levels.length name).Fitting := by
  obtain ⟨rest, hrest⟩ := hold
  rw [line_eq, List.append_assoc, List.singleton_append] at hrest
  have hforth := (hother.withSegment h.concrete hrest.symm).1
  rwa [h.single.length_levelSteps] at hforth

/-- The keys at the old address and beneath it are now at the new address and beneath it. -/
theorem storedKey?_moved (h : Rebound rows rows' address name above id) {other : Address}
    (hother : other.Fitting) (hold : address.line <+: other.steps other.kinds) :
    (other.withSegment address.path.levels.length name).storedKey? rows' =
      other.storedKey? rows := by
  obtain ⟨rest, hrest⟩ := hold
  rw [line_eq, List.append_assoc, List.singleton_append] at hrest
  obtain ⟨hforth, hsteps, hwildcard⟩ := hother.withSegment h.concrete hrest.symm
  rw [h.single.length_levelSteps] at hforth hsteps hwildcard
  rw [hother.storedKey?_eq, hforth.storedKey?_eq, kinds_withSegment, hsteps, ← hrest, h.trail?_new,
    keyOf_withSegment hwildcard]

/-- At the old address and beneath it there are no keys. -/
theorem storedKey?_old (h : Rebound rows rows' address name above id)
    (hne : name ≠ address.path.leaf) {other : Address} (hother : other.Fitting)
    (hold : address.line <+: other.steps other.kinds) : other.storedKey? rows' = none := by
  obtain ⟨rest, hrest⟩ := hold
  rw [line_eq, List.append_assoc, List.singleton_append] at hrest
  rw [hother.storedKey?_eq, ← hrest, h.trail?_old hne, Option.map_none]

/-- All other addresses keep their keys. -/
theorem storedKey?_other (h : Rebound rows rows' address name above id)
    (hrows : Names.Consistent rows) {other : Address} (hother : other.Fitting)
    (hold : ¬ address.line <+: other.steps other.kinds)
    (hnew : ¬ (address.renamed name).line <+: other.steps other.kinds) :
    other.storedKey? rows' = other.storedKey? rows := by
  rw [hother.storedKey?_eq, hother.storedKey?_eq, h.trail?_other hrows hold hnew]

/-- The rows of entities stay. -/
theorem get?_encode (h : Rebound rows rows' address name above id) (key : Key) :
    rows'.get? key.encode = rows.get? key.encode :=
  h.moved.get?_eq (fun other heq => Layout.encode_ne_nameKey key other heq.symm)
    fun other heq => Layout.encode_ne_idKey key other heq.symm

end Rebound

end Address

namespace Kept

variable {rows rows' : Rows} {address : Address} {name : String} {above : List UInt64} {id : UInt64}

open Address

/-- A rename to an address with no entity at it and beneath it keeps the rows well kept. -/
theorem rebound (h : Kept rows) (hrebound : Rebound rows rows' address name above id)
    (hfree : ∀ other, other = address.renamed name ∨ (address.renamed name).Beneath other →
      other.record? rows = none) : Kept rows' := by
  refine ⟨hrebound.moved.consistent h.consistent hrebound.bound, fun key bytes hrow => ?_⟩
  rw [hrebound.moved key] at hrow
  split at hrow
  · rename_i heq
    rw [← heq, ← Option.some.inj hrow]
    exact .id id _
  · split at hrow
    · rename_i heq
      rw [← heq, ← Option.some.inj hrow]
      exact .name _ id
    · split at hrow
      · exact absurd hrow (by simp)
      · cases h.accounted key bytes hrow with
        | mark mark => exact .mark mark
        | name name id => exact .name name id
        | id id name => exact .id id name
        | entity other key record hkey hconcrete hfits =>
          have hother := fitting_of_storedKey? hkey
          have hrecord : other.record? rows = some record :=
            (h.record?_eq_some_iff other record).mpr ⟨key, hkey, hconcrete, hfits, hrow⟩
          have hnew : ¬ (address.renamed name).line <+: other.steps other.kinds := by
            rw [line_prefix_steps_iff (hrebound.single.renamed hrebound.concrete) hother]
            intro hnew
            rw [hfree other hnew] at hrecord
            exact absurd hrecord (by simp)
          by_cases hold : address.line <+: other.steps other.kinds
          · exact .entity _ key record
              ((hrebound.storedKey?_moved hother hold).trans hkey) hconcrete hfits
          · exact .entity other key record
              ((hrebound.storedKey?_other h.consistent hother hold hnew).trans hkey) hconcrete hfits

/-- A rename moves the records at the address and beneath it to the new address and beneath that,
and no others. -/
theorem record?_rebound (h : Kept rows) (hrebound : Rebound rows rows' address name above id)
    (hne : name ≠ address.path.leaf)
    (hfree : ∀ other, other = address.renamed name ∨ (address.renamed name).Beneath other →
      other.record? rows = none) (other : Address) :
    other.record? rows' =
      if other = address.renamed name ∨ (address.renamed name).Beneath other then
        (other.withSegment address.path.levels.length address.path.leaf).record? rows
      else if other = address ∨ address.Beneath other then none
      else other.record? rows := by
  have hkept := h.rebound hrebound hfree
  have hrenamed := hrebound.single.renamed hrebound.concrete
  have hleaf := hrebound.single.isConcrete_leaf
  by_cases hother : other.Single
  · have hfitting := hother.fitting
    have hatNew := line_prefix_steps_iff hrenamed hfitting
    have hatOld := line_prefix_steps_iff hrebound.single hfitting
    by_cases hnew : (address.renamed name).line <+: other.steps other.kinds
    · rw [if_pos (hatNew.mp hnew), record?, record?, hrebound.storedKey?_new hfitting hnew]
      simp only [hrebound.get?_encode]
    · rw [if_neg (mt hatNew.mpr hnew)]
      by_cases hold : address.line <+: other.steps other.kinds
      · rw [if_pos (hatOld.mp hold), record?, hrebound.storedKey?_old hne hfitting hold,
          Option.bind_none]
      · rw [if_neg (mt hatOld.mpr hold), record?, record?,
          hrebound.storedKey?_other h.consistent hfitting hold hnew]
        simp only [hrebound.get?_encode]
  · -- An address that fails the checks has no record, nor does the one that it would come from.
    have hnone (rows : Rows) (hrows : Kept rows) {other : Address} (hsingle : ¬ other.Single) :
        other.record? rows = none :=
      Option.eq_none_iff_forall_ne_some.mpr fun record hrecord => hsingle (hrows.single hrecord)
    rw [hnone rows' hkept hother, hnone rows h hother, ite_self]
    split
    · rename_i hnew
      refine (hnone rows h fun hback => hother ?_).symm
      rcases hnew with rfl | ⟨-, more, hlevels⟩
      · exact hrenamed
      · have hsegment : other.path.segments[address.path.levels.length]? = some name := by
          rw [Path.segments, ← hlevels]
          simp [renamed, Path.withName, Path.segments]
        have hforth := hback.withSegment address.path.levels.length hrebound.concrete
        rwa [withSegment_withSegment, withSegment_self hsegment] at hforth
    · rfl

end Kept

end EntityCatalog
