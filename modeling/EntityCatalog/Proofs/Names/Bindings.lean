import EntityCatalog.Proofs.Names.Ledger

/-!
# Bindings in both directions

In consistent rows every name row holds an id, and the id row of that id holds the name. So two
names never share an id. Binding a free name to a free id keeps the rows consistent, and so does
moving an id from one name to another; both leave all other bindings alone.

Resolving a name does no more than to bind it, and finding one changes no row.
-/

namespace EntityCatalog

namespace Names

/-- The id in the name row of a name, if there is one. -/
def boundId? (rows : Rows) (name : String) : Option UInt64 :=
  (rows.get? (Layout.nameKey name)).bind word?

/-- A name is bound to an id exactly if its name row holds the bytes of the id. -/
theorem boundId?_eq_some_iff (rows : Rows) (name : String) (id : UInt64) :
    boundId? rows name = some id ↔ rows.get? (Layout.nameKey name) = some (wordBytes id) := by
  rw [boundId?]
  cases rows.get? (Layout.nameKey name) with
  | none => simp
  | some bytes => simpa using word?_eq_some_iff bytes id

/-- The id of a name depends on its name row alone. -/
theorem boundId?_congr {rows rows' : Rows} {name : String}
    (h : rows'.get? (Layout.nameKey name) = rows.get? (Layout.nameKey name)) :
    boundId? rows' name = boundId? rows name := by
  rw [boundId?, boundId?, h]

/-- Every name row holds an id, and the id row of that id holds the name. -/
structure Consistent (rows : Rows) : Prop where
  legible : ∀ name bytes, rows.get? (Layout.nameKey name) = some bytes → ∃ id, bytes = wordBytes id
  paired : ∀ name id, boundId? rows name = some id →
    rows.get? (Layout.idKey id) = some (Text.utf8 name)

namespace Consistent

variable {rows rows' : Rows}

/-- Without rows the books are consistent. -/
theorem empty : Consistent Rows.empty := by
  refine ⟨fun name bytes h => ?_, fun name id h => ?_⟩
  · exact absurd h (by simp)
  · exact absurd ((boundId?_eq_some_iff Rows.empty name id).mp h) (by simp)

/-- Looking up a name in consistent rows does not fail. -/
theorem storedId?_eq (h : Consistent rows) (name : String) :
    storedId? rows name = .ok (boundId? rows name) := by
  cases hbound : rows.get? (Layout.nameKey name) with
  | none =>
    rw [(storedId?_eq_none_iff rows name).mpr hbound, boundId?, hbound, Option.bind_none]
  | some bytes =>
    obtain ⟨id, rfl⟩ := h.legible name bytes hbound
    rw [(storedId?_eq_some_iff rows name id).mpr hbound, (boundId?_eq_some_iff rows name id).mpr hbound]

/-- Among consistent rows a name is unbound exactly if it has no row. -/
theorem boundId?_eq_none_iff (h : Consistent rows) (name : String) :
    boundId? rows name = none ↔ rows.get? (Layout.nameKey name) = none := by
  rw [← storedId?_eq_none_iff, h.storedId?_eq name, Except.ok.injEq]

/-- The id row of a bound id holds the name. -/
theorem storedName?_eq (h : Consistent rows) {name : String} {id : UInt64}
    (hid : boundId? rows name = some id) : storedName? rows id = .ok (some name) := by
  rw [storedName?, h.paired name id hid]
  simp

/-- No two names are bound to one id. -/
theorem name_unique (h : Consistent rows) {name name' : String} {id : UInt64}
    (hid : boundId? rows name = some id) (hid' : boundId? rows name' = some id) : name = name' := by
  have hname := h.paired name id hid
  rw [h.paired name' id hid'] at hname
  exact (Text.utf8_injective (Option.some.inj hname)).symm

/-- Rows with the same name rows that keep the id rows are as consistent. -/
theorem congr (h : Consistent rows)
    (hnames : ∀ name, rows'.get? (Layout.nameKey name) = rows.get? (Layout.nameKey name))
    (hids : ∀ id, rows'.get? (Layout.idKey id) = rows.get? (Layout.idKey id)) : Consistent rows' := by
  refine ⟨fun name bytes hbytes => ?_, fun name id hid => ?_⟩
  · rw [hnames] at hbytes
    exact h.legible name bytes hbytes
  · rw [boundId?_congr (hnames name)] at hid
    rw [hids]
    exact h.paired name id hid

end Consistent

/-! ## Binding a free name -/

/-- Binding a name gives the id to that name and to no other. -/
theorem boundId?_withBinding (rows : Rows) (name : String) (id : UInt64) (name' : String) :
    boundId? (withBinding rows name id) name' =
      if name = name' then some id else boundId? rows name' := by
  have hid : Layout.idKey id ≠ Layout.nameKey name' := (Layout.nameKey_ne_idKey name' id).symm
  split
  · rename_i heq
    rw [boundId?_eq_some_iff, get?_withBinding, if_neg hid, heq, if_pos rfl]
  · rename_i hne
    apply boundId?_congr
    rw [get?_withBinding, if_neg hid, if_neg (Layout.nameKey_ne hne)]

/-- Binding a free name to a free id keeps the rows consistent. -/
theorem Consistent.withBinding {rows : Rows} (h : Consistent rows) (name : String) {id : UInt64}
    (hid : rows.get? (Layout.idKey id) = none) : Consistent (withBinding rows name id) := by
  refine ⟨fun name' bytes hbytes => ?_, fun name' id' hbound => ?_⟩
  · rw [get?_withBinding, if_neg (Layout.nameKey_ne_idKey name' id).symm] at hbytes
    split at hbytes
    · exact ⟨id, (Option.some.inj hbytes).symm⟩
    · exact h.legible name' bytes hbytes
  · rw [boundId?_withBinding] at hbound
    rw [get?_withBinding]
    split at hbound
    · rename_i heq
      rw [if_pos (congrArg Layout.idKey (Option.some.inj hbound)), heq]
    · have hpaired := h.paired name' id' hbound
      have hne : Layout.idKey id ≠ Layout.idKey id' := by
        intro heq
        rw [heq, hpaired] at hid
        exact absurd hid (by simp)
      rw [if_neg hne, if_neg (Layout.nameKey_ne_idKey name id'), hpaired]

/-- The second rows come from the first by binding free names to free ids, one after another. -/
inductive Grows (rows : Rows) : Rows → Prop where
  | refl : Grows rows rows
  | bind {mid : Rows} {name : String} {id : UInt64} (h : Grows rows mid)
      (hname : mid.get? (Layout.nameKey name) = none) (hid : mid.get? (Layout.idKey id) = none) :
      Grows rows (withBinding mid name id)

namespace Grows

variable {rows mid rows' : Rows}

/-- Rows that have grown may grow on. -/
theorem trans (h : Grows rows mid) (h' : Grows mid rows') : Grows rows rows' := by
  induction h' with
  | refl => exact h
  | bind _ hname hid ih => exact ih.bind hname hid

/-- Consistent rows stay consistent as they grow. -/
theorem consistent (h : Grows rows rows') (hrows : Consistent rows) : Consistent rows' := by
  induction h with
  | refl => exact hrows
  | bind _ _ hid ih => exact ih.withBinding _ hid

/-- A name keeps its id as the rows grow. -/
theorem boundId?_eq_some (h : Grows rows rows') {name : String} {id : UInt64}
    (hid : boundId? rows name = some id) : boundId? rows' name = some id := by
  induction h with
  | refl => exact hid
  | @bind mid free id' _ hfree _ ih =>
    rw [boundId?_withBinding]
    split
    · rename_i heq
      rw [heq] at hfree
      rw [boundId?, hfree] at ih
      exact absurd ih (by simp)
    · exact ih

/-- A key that is neither that of a name nor that of an id keeps its row as the rows grow. -/
theorem get?_eq (h : Grows rows rows') {key : Bytes} (hname : ∀ name, Layout.nameKey name ≠ key)
    (hid : ∀ id, Layout.idKey id ≠ key) : rows'.get? key = rows.get? key := by
  induction h with
  | refl => rfl
  | bind _ _ _ ih => rw [get?_withBinding, if_neg (hid _), if_neg (hname _), ih]

end Grows

/-! ## Finding and resolving names -/

/-- A registry after it was read: its rows and its source of ids are as they were, and its cache is
faithful. -/
structure Read (names names' : Names) : Prop where
  rows : names'.rows = names.rows
  ids : names'.ids = names.ids
  faithful : names'.Faithful

/-- Doing nothing to a registry with a faithful cache is a reading of it. -/
theorem Read.refl {names : Names} (h : names.Faithful) : Read names names := ⟨rfl, rfl, h⟩

/-- Two readings in turn are a reading. -/
theorem Read.trans {names mid names' : Names} (h : Read names mid) (h' : Read mid names') :
    Read names names' :=
  ⟨h'.rows.trans h.rows, h'.ids.trans h.ids, h'.faithful⟩

/-- Finding a name reads the registry. -/
theorem find?_read {names : Names} (h : names.Faithful) (name : String) :
    Read names (names.find? name).2 := by
  have hfind := find?_transparent h name
  exact ⟨congrArg Ledger.rows hfind.ledger, congrArg Ledger.ids hfind.ledger, hfind.faithful⟩

/-- In consistent rows, finding a name gives its id. -/
theorem find?_eq {names : Names} (h : names.Faithful) (hrows : Consistent names.rows)
    (name : String) : (names.find? name).1 = .ok (boundId? names.rows name) := by
  rw [(find?_transparent h name).answer]
  exact hrows.storedId?_eq name


/-- Binding a free name takes an id that was free, or gives up and changes no row. -/
theorem ledger_allocate_cases (ledger : Ledger) {name : String}
    (hname : ledger.rows.get? (Layout.nameKey name) = none) (attempts : Nat) :
    (∃ id, (ledger.allocate name attempts).1 = .ok id ∧
      ledger.rows.get? (Layout.idKey id) = none ∧
      (ledger.allocate name attempts).2.rows = withBinding ledger.rows name id) ∨
    (ledger.allocate name attempts).1 = .error (.internal (.idsExhausted name maxAttempts)) ∧
      (ledger.allocate name attempts).2.rows = ledger.rows := by
  induction attempts generalizing ledger with
  | zero => exact Or.inr ⟨rfl, rfl⟩
  | succ attempts ih =>
    simp only [Ledger.allocate, batch_binding]
    by_cases hid : ledger.rows.get? (Layout.idKey ledger.ids.peek) = none
    · rw [if_pos ⟨hname, hid⟩]
      exact Or.inl ⟨ledger.ids.peek, rfl, hid, rfl⟩
    · rw [if_neg fun hboth => hid hboth.2]
      exact @ih { ledger with ids := ledger.ids.advance } hname

/-- Resolving a bound name gives its id and reads the registry. -/
theorem resolve_of_bound {names : Names} (h : names.Faithful) (hrows : Consistent names.rows)
    {name : String} {id : UInt64} (hid : boundId? names.rows name = some id) :
    (names.resolve name).1 = .ok id ∧ Read names (names.resolve name).2 := by
  have hresolve := resolve_transparent h name
  have hstored : storedId? names.ledger.rows name = .ok (some id) := by
    rw [← hid]
    exact hrows.storedId?_eq name
  rw [Ledger.resolve, hstored] at hresolve
  exact ⟨hresolve.answer, congrArg Ledger.rows hresolve.ledger, congrArg Ledger.ids hresolve.ledger,
    hresolve.faithful⟩

/-- Resolving a free name binds it to an id that was free, or gives up and changes no row. -/
theorem resolve_of_free {names : Names} (h : names.Faithful) {name : String}
    (hname : names.rows.get? (Layout.nameKey name) = none) :
    (∃ id, (names.resolve name).1 = .ok id ∧ names.rows.get? (Layout.idKey id) = none ∧
      (names.resolve name).2.rows = withBinding names.rows name id) ∨
    (names.resolve name).1 = .error (.internal (.idsExhausted name maxAttempts)) ∧
      (names.resolve name).2.rows = names.rows := by
  have hresolve := resolve_transparent h name
  have hstored : storedId? names.ledger.rows name = .ok none :=
    (storedId?_eq_none_iff names.rows name).mpr hname
  rw [Ledger.resolve, hstored] at hresolve
  have hrows : (names.resolve name).2.rows = _ := congrArg Ledger.rows hresolve.ledger
  rw [hresolve.answer, hrows]
  exact ledger_allocate_cases names.ledger hname maxAttempts

/-- Resolving a name grows the rows, and the id that it gives is then the id of the name. -/
theorem resolve_grows {names : Names} (h : names.Faithful) (hrows : Consistent names.rows)
    (name : String) :
    Grows names.rows (names.resolve name).2.rows ∧
      ∀ id, (names.resolve name).1 = .ok id → boundId? (names.resolve name).2.rows name = some id := by
  cases hbound : boundId? names.rows name with
  | some id =>
    obtain ⟨hanswer, hread⟩ := resolve_of_bound h hrows hbound
    rw [hread.rows, hanswer]
    exact ⟨.refl, fun id' hid' => hbound.trans (congrArg some (Except.ok.inj hid'))⟩
  | none =>
    have hname := (hrows.boundId?_eq_none_iff name).mp hbound
    rcases resolve_of_free h hname with ⟨id, hanswer, hid, hafter⟩ | ⟨hanswer, hafter⟩
    · rw [hafter, hanswer]
      refine ⟨Grows.refl.bind hname hid, fun id' hid' => ?_⟩
      rw [boundId?_withBinding, if_pos rfl, Except.ok.inj hid']
    · rw [hafter, hanswer]
      exact ⟨.refl, fun id' hid' => absurd hid' (by simp)⟩

end Names

end EntityCatalog
