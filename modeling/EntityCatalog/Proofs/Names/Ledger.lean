import EntityCatalog.Names.Basic
import EntityCatalog.Proofs.Cache.Content
import EntityCatalog.Proofs.Layout
import EntityCatalog.Proofs.Rows.Batch

/-!
# The registry without its cache

A ledger serves the same requests as the registry from the rows alone. As long as every cached
binding is the stored one, the registry gives the answers of the ledger, draws the same ids,
leaves the same rows, and its cache stays that way.
-/

namespace EntityCatalog

/-- A registry that keeps no cache: the rows and the source of fresh ids. -/
structure Ledger where
  rows : Rows
  ids : IdSource

namespace Ledger

/-- Bind a name that is not bound to the first free id among the next draws. -/
def allocate (name : String) : (attempts : Nat) → Ledger → Except Error UInt64 × Ledger
  | 0, ledger => (.error (.internal (.idsExhausted name Names.maxAttempts)), ledger)
  | attempts + 1, ledger =>
    match ledger.rows.batch (Names.binding name ledger.ids.peek) with
    | (true, rows) => (.ok ledger.ids.peek, ⟨rows, ledger.ids.advance⟩)
    | (false, _) => allocate name attempts { ledger with ids := ledger.ids.advance }

/-- The id of a name. A name that is not bound is bound to a fresh id. -/
def resolve (ledger : Ledger) (name : String) : Except Error UInt64 × Ledger :=
  match Names.storedId? ledger.rows name with
  | .error fault => (.error fault, ledger)
  | .ok (some id) => (.ok id, ledger)
  | .ok none => allocate name Names.maxAttempts ledger

/-- The id of a name, if it is bound. -/
def find? (ledger : Ledger) (name : String) : Except Error (Option UInt64) × Ledger :=
  (Names.storedId? ledger.rows name, ledger)

/-- Apply the changes of a rename. -/
def commitRename (ledger : Ledger) (new : String) (changes : List Change) :
    Except Error Bool × Ledger :=
  match ledger.rows.batch changes with
  | (true, rows) => (.ok true, { ledger with rows })
  | (false, _) => (.error (.nameTaken new), ledger)

/-- Move the id of one name to another in one batch with further changes. -/
def renameWith (ledger : Ledger) (old new : String) (replaced : Option UInt64)
    (along : List Change) : Except Error Bool × Ledger :=
  match Names.storedId? ledger.rows old with
  | .error fault => (.error fault, ledger)
  | .ok none => (.ok false, ledger)
  | .ok (some id) =>
    match Names.renameChanges ledger.rows old new id replaced along with
    | .error fault => (.error fault, ledger)
    | .ok changes => ledger.commitRename new changes

/-- Remove the name row of a name. -/
def unbind (ledger : Ledger) (name : String) : Bool × Ledger :=
  (ledger.rows.contains (Layout.nameKey name),
    { ledger with rows := ledger.rows.erase (Layout.nameKey name) })

end Ledger

/-- Changes that touch no name row. -/
def SparesNames (changes : List Change) : Prop :=
  ∀ change ∈ changes, ∀ name, ¬ change.Touches (Layout.nameKey name)

namespace Names

/-- A registry less its cache. -/
def ledger (names : Names) : Ledger := ⟨names.rows, names.ids⟩

/-- Every cached binding is the one in the name row. -/
def Faithful (names : Names) : Prop :=
  ∀ name id, names.cache.cached? name = some id → storedId? names.rows name = .ok (some id)

/-- A result of the registry that shows nothing of its cache: the answer and the rest of the
registry are those of the ledger, and the cache can be trusted afterwards. -/
structure Transparent {α : Type} (result : α × Names) (plain : α × Ledger) : Prop where
  answer : result.1 = plain.1
  ledger : result.2.ledger = plain.2
  faithful : result.2.Faithful

/-- The stored id of a name depends on its name row alone. -/
theorem storedId?_congr {rows rows' : Rows} {name : String}
    (h : rows'.get? (Layout.nameKey name) = rows.get? (Layout.nameKey name)) :
    storedId? rows' name = storedId? rows name := by
  rw [storedId?, storedId?, h]

/-- A name is stored with an id exactly if its name row holds the bytes of the id. -/
theorem storedId?_eq_some_iff (rows : Rows) (name : String) (id : UInt64) :
    storedId? rows name = .ok (some id) ↔
      rows.get? (Layout.nameKey name) = some (wordBytes id) := by
  rw [storedId?]
  cases rows.get? (Layout.nameKey name) with
  | none => simp
  | some bytes =>
    have hword := word?_eq_some_iff bytes id
    simp only [readId, Option.some.injEq, ← hword]
    cases word? bytes <;> simp [Except.map]

/-- A name is stored without an id exactly if it has no name row. -/
theorem storedId?_eq_none_iff (rows : Rows) (name : String) :
    storedId? rows name = .ok none ↔ rows.get? (Layout.nameKey name) = none := by
  rw [storedId?]
  cases rows.get? (Layout.nameKey name) with
  | none => simp
  | some bytes =>
    simp only [readId, reduceCtorEq, iff_false]
    cases word? bytes <;> simp [Except.map]

/-- A cache that lost bindings, over rows with the same name rows, is still faithful. -/
theorem Faithful.mono {names names' : Names} (h : names.Faithful)
    (hcache : names'.cache.Within names.cache)
    (hrows : ∀ name id, names'.cache.cached? name = some id →
      names'.rows.get? (Layout.nameKey name) = names.rows.get? (Layout.nameKey name)) :
    names'.Faithful := by
  intro name id hcached
  rw [storedId?_congr (hrows name id hcached)]
  exact h name id (hcache name id hcached)

/-- Noting the stored binding of a name keeps the cache faithful. -/
theorem Faithful.remember {names : Names} (h : names.Faithful) {name : String} {id : UInt64}
    (hid : storedId? names.rows name = .ok (some id)) : (names.remember name id).Faithful := by
  intro name' id' hcached
  rcases Cache.cached?_insert names.cache name id hcached with ⟨rfl, rfl⟩ | ⟨-, hold⟩
  · exact hid
  · exact h name' id' hold

/-- A cache that forgets a name stays faithful. -/
theorem Faithful.forget {names : Names} (h : names.Faithful) (name : String) :
    (names.forget name).Faithful :=
  h.mono (Cache.erase_within names.cache name) fun _ _ _ => rfl

/-- A registry with a new cache is faithful. -/
theorem Faithful.create (rows : Rows) (capacity : Nat) (idle : Idle) (ids : IdSource) :
    (⟨rows, .create capacity idle, ids⟩ : Names).Faithful := by
  intro name id hcached
  exact absurd hcached (by simp)

/-- A hit in a faithful cache is the stored binding. -/
theorem storedId?_of_lookup {names : Names} (h : names.Faithful) {name : String} {id : UInt64}
    (hhit : (names.lookup name).1 = some id) : storedId? names.rows name = .ok (some id) :=
  h name id (Cache.cached?_of_get hhit)

/-- A look-up leaves a cache faithful. -/
theorem Faithful.lookup {names : Names} (h : names.Faithful) (name : String) :
    (names.lookup name).2.Faithful :=
  h.mono (Cache.get_within names.cache name) fun _ _ _ => rfl

/-- A look-up leaves the rows as they were. -/
@[simp] theorem rows_lookup (names : Names) (name : String) :
    (names.lookup name).2.rows = names.rows := rfl

/-- Looking a name up without binding it. -/
theorem find?_transparent {names : Names} (h : names.Faithful) (name : String) :
    Transparent (names.find? name) (names.ledger.find? name) := by
  have hlookup := h.lookup name
  rw [Names.find?]
  split
  · rename_i id names' heq
    have hstored := storedId?_of_lookup h (congrArg Prod.fst heq)
    obtain rfl := congrArg Prod.snd heq
    exact ⟨hstored.symm, rfl, hlookup⟩
  · rename_i names' heq
    obtain rfl := congrArg Prod.snd heq
    rw [Ledger.find?]
    split
    · rename_i fault hstored
      exact ⟨hstored.symm, rfl, hlookup⟩
    · rename_i id hstored
      exact ⟨hstored.symm, rfl, hlookup.remember hstored⟩
    · rename_i hstored
      exact ⟨hstored.symm, rfl, hlookup⟩

/-- The rows with both rows of a binding. -/
def withBinding (rows : Rows) (name : String) (id : UInt64) : Rows :=
  (rows.insert (Layout.nameKey name) (wordBytes id)).insert (Layout.idKey id) (Text.utf8 name)

/-- Binding a name writes its name row and the id row, and no other. -/
theorem get?_withBinding (rows : Rows) (name : String) (id : UInt64) (key : Bytes) :
    (withBinding rows name id).get? key =
      if Layout.idKey id = key then some (Text.utf8 name)
      else if Layout.nameKey name = key then some (wordBytes id) else rows.get? key := by
  rw [withBinding, Rows.get?_insert, Rows.get?_insert]

/-- A binding is applied exactly when both of its rows are free. -/
theorem batch_binding (rows : Rows) (name : String) (id : UInt64) :
    rows.batch (binding name id) =
      if rows.get? (Layout.nameKey name) = none ∧ rows.get? (Layout.idKey id) = none then
        (true, withBinding rows name id)
      else (false, rows) := by
  simp only [Rows.batch_eq, binding, Rows.batch?, Change.make?]
  cases hname : rows.get? (Layout.nameKey name) with
  | some value => simp [Rows.contains, hname]
  | none =>
    have hid : (rows.insert (Layout.nameKey name) (wordBytes id)).get? (Layout.idKey id) =
        rows.get? (Layout.idKey id) :=
      Rows.get?_insert_of_ne rows _ (Layout.nameKey_ne_idKey name id)
    cases hfree : rows.get? (Layout.idKey id) with
    | some value => simp [Rows.contains, hname, hid, hfree]
    | none => simp [Rows.contains, hname, hid, hfree, withBinding]

/-- Other names keep their rows when a name is bound. -/
theorem storedId?_withBinding (rows : Rows) (name : String) (id : UInt64) (name' : String) :
    storedId? (withBinding rows name id) name' =
      if name = name' then .ok (some id) else storedId? rows name' := by
  have hid : Layout.idKey id ≠ Layout.nameKey name' := (Layout.nameKey_ne_idKey name' id).symm
  split
  · rename_i heq
    rw [storedId?_eq_some_iff, get?_withBinding, if_neg hid, heq, if_pos rfl]
  · rename_i hne
    apply storedId?_congr
    rw [get?_withBinding, if_neg hid, if_neg (Layout.nameKey_ne hne)]

/-- A faithful cache stays so when a name that was free is bound and noted. -/
theorem Faithful.bind {names : Names} (h : names.Faithful) {name : String} {id : UInt64}
    (hfree : names.rows.get? (Layout.nameKey name) = none) (ids : IdSource) :
    ({ names with rows := withBinding names.rows name id, ids }.remember name id).Faithful := by
  have hbound : ({ names with rows := withBinding names.rows name id, ids } : Names).Faithful := by
    intro name' id' hcached
    have hstored := h name' id' hcached
    have hne : name ≠ name' := by
      rintro rfl
      rw [(storedId?_eq_none_iff names.rows name).mpr hfree] at hstored
      exact absurd hstored (by simp)
    exact (storedId?_withBinding names.rows name id name').trans ((if_neg hne).trans hstored)
  exact hbound.remember ((storedId?_withBinding names.rows name id name).trans (if_pos rfl))

/-- Binding a free name to one of the next ids. -/
theorem allocate_transparent {names : Names} (h : names.Faithful) {name : String}
    (hfree : names.rows.get? (Layout.nameKey name) = none) (attempts : Nat) :
    Transparent (allocate name attempts names) (names.ledger.allocate name attempts) := by
  induction attempts generalizing names with
  | zero => exact ⟨rfl, rfl, h⟩
  | succ attempts ih =>
    have hledger : names.ledger.rows = names.rows := rfl
    simp only [allocate, Ledger.allocate, hledger, batch_binding]
    by_cases hid : names.rows.get? (Layout.idKey names.ids.peek) = none
    · have hpeek : names.ledger.ids.peek = names.ids.peek := rfl
      rw [hpeek, if_pos ⟨hfree, hid⟩]
      exact ⟨rfl, rfl, h.bind hfree names.ids.advance⟩
    · have hpeek : names.ledger.ids.peek = names.ids.peek := rfl
      rw [hpeek, if_neg fun hboth => hid hboth.2]
      exact @ih { names with ids := names.ids.advance } h hfree

/-- Finding or binding a name. -/
theorem resolve_transparent {names : Names} (h : names.Faithful) (name : String) :
    Transparent (names.resolve name) (names.ledger.resolve name) := by
  have hlookup := h.lookup name
  rw [resolve, Ledger.resolve]
  split
  · rename_i id names' heq
    have hstored := storedId?_of_lookup h (congrArg Prod.fst heq)
    obtain rfl := congrArg Prod.snd heq
    have hledger : storedId? names.ledger.rows name = .ok (some id) := hstored
    rw [hledger]
    exact ⟨rfl, rfl, hlookup⟩
  · rename_i names' heq
    obtain rfl := congrArg Prod.snd heq
    have hrows : (names.lookup name).2.rows = names.ledger.rows := rfl
    rw [hrows]
    cases hstored : storedId? names.ledger.rows name with
    | error fault => exact ⟨rfl, rfl, hlookup⟩
    | ok bound =>
      cases bound with
      | some id => exact ⟨rfl, rfl, hlookup.remember hstored⟩
      | none =>
        exact allocate_transparent hlookup ((storedId?_eq_none_iff _ _).mp hstored) maxAttempts

/-- Moving a name touches no name row but those of the two names. -/
theorem moveChanges_touches {old new name : String} (id : UInt64) (hold : old ≠ name)
    (hnew : new ≠ name) : ∀ change ∈ moveChanges old new id, ¬ change.Touches (Layout.nameKey name) := by
  intro change hchange
  simp only [moveChanges, List.mem_cons, List.not_mem_nil, or_false] at hchange
  rcases hchange with rfl | rfl | rfl
  · exact Layout.nameKey_ne hold
  · exact Layout.nameKey_ne hnew
  · exact (Layout.nameKey_ne_idKey name id).symm

/-- Freeing a name erases its name row at most. -/
theorem mem_freeChanges {new : String} {replaced bound : Option UInt64} {freed : List Change}
    (hfreed : freeChanges new replaced bound = .ok freed) {change : Change}
    (hchange : change ∈ freed) : change = .erase (Layout.nameKey new) := by
  simp only [freeChanges] at hfreed
  split at hfreed
  · obtain rfl := Except.ok.inj hfreed
    exact absurd hchange List.not_mem_nil
  · split at hfreed
    · obtain rfl := Except.ok.inj hfreed
      exact List.mem_singleton.mp hchange
    · exact absurd hfreed (by simp)

/-- A rename between different names makes room for the new one and then moves the id. -/
theorem renameChanges_cases {rows : Rows} {old new : String} {id : UInt64}
    {replaced : Option UInt64} {along changes : List Change}
    (h : renameChanges rows old new id replaced along = .ok changes) :
    changes = along ∨ ∃ bound freed, freeChanges new replaced bound = .ok freed ∧
      changes = along ++ freed ++ moveChanges old new id := by
  simp only [renameChanges] at h
  split at h
  · exact Or.inl (Except.ok.inj h).symm
  · split at h
    · exact absurd h (by simp)
    · rename_i bound hbound
      cases hfreed : freeChanges new replaced bound with
      | error fault =>
        rw [hfreed] at h
        exact absurd h (by simp [Except.map])
      | ok freed =>
        rw [hfreed] at h
        exact Or.inr ⟨bound, freed, hfreed, (Except.ok.inj h).symm⟩

/-- The changes that free and move names touch no name row but those of the two names. -/
theorem renameChanges_touches {rows : Rows} {old new : String} {id : UInt64}
    {replaced : Option UInt64} {along changes : List Change} (halong : SparesNames along)
    (h : renameChanges rows old new id replaced along = .ok changes) {name : String}
    (hold : old ≠ name) (hnew : new ≠ name) :
    ∀ change ∈ changes, ¬ change.Touches (Layout.nameKey name) := by
  rcases renameChanges_cases h with rfl | ⟨bound, freed, hfreed, rfl⟩
  · exact fun change hchange => halong change hchange name
  · intro change hchange
    rw [List.mem_append, List.mem_append] at hchange
    rcases hchange with (hchange | hchange) | hchange
    · exact halong change hchange name
    · rw [mem_freeChanges hfreed hchange]
      exact Layout.nameKey_ne hnew
    · exact moveChanges_touches id hold hnew change hchange

/-- A name that is still cached after another was dropped is another name. -/
theorem ne_and_cached?_of_forget {names : Names} {name name' : String} {id : UInt64}
    (h : (names.forget name).cache.cached? name' = some id) :
    name ≠ name' ∧ names.cache.cached? name' = some id := by
  have herase := Cache.cached?_erase names.cache name name'
  rw [forget, herase] at h
  split at h
  · exact absurd h (by simp)
  · rename_i hne
    exact ⟨hne, h⟩

/-- Applying changes that touch the name rows of the two dropped names alone. -/
theorem commitRename_transparent {names : Names} (h : names.Faithful) {old new : String}
    {changes : List Change}
    (htouch : ∀ name, old ≠ name → new ≠ name →
      ∀ change ∈ changes, ¬ change.Touches (Layout.nameKey name)) :
    Transparent (names.commitRename old new changes) (names.ledger.commitRename new changes) := by
  have hcleared : ((names.forget old).forget new).Faithful := (h.forget old).forget new
  have hrows : ((names.forget old).forget new).rows = names.rows := rfl
  have hledger : names.ledger.rows = names.rows := rfl
  rw [commitRename, Ledger.commitRename, hrows, hledger]
  cases hbatch : names.rows.batch changes with
  | mk applied rows =>
    cases applied with
    | false => exact ⟨rfl, rfl, hcleared⟩
    | true =>
      refine ⟨rfl, rfl, hcleared.mono (Cache.Within.refl _) fun name id hcached => ?_⟩
      obtain ⟨hnew, hcached⟩ := ne_and_cached?_of_forget hcached
      obtain ⟨hold, -⟩ := ne_and_cached?_of_forget hcached
      have hkept := Rows.get?_batch_of_not_touches names.rows (htouch name hold hnew)
      rwa [hbatch] at hkept

/-- Moving the id of one name to another. -/
theorem renameWith_transparent {names : Names} (h : names.Faithful) (old new : String)
    (replaced : Option UInt64) {along : List Change} (halong : SparesNames along) :
    Transparent (names.renameWith old new replaced along)
      (names.ledger.renameWith old new replaced along) := by
  have hledger : names.ledger.rows = names.rows := rfl
  rw [renameWith, Ledger.renameWith, hledger]
  cases storedId? names.rows old with
  | error fault => exact ⟨rfl, rfl, h⟩
  | ok bound =>
    cases bound with
    | none => exact ⟨rfl, rfl, h⟩
    | some id =>
      dsimp only
      cases hchanges : renameChanges names.rows old new id replaced along with
      | error fault => exact ⟨rfl, rfl, h⟩
      | ok changes =>
        exact commitRename_transparent h fun _ hold hnew =>
          renameChanges_touches halong hchanges hold hnew

/-- Removing the name row of a name. -/
theorem unbind_transparent {names : Names} (h : names.Faithful) (name : String) :
    Transparent (names.unbind name) (names.ledger.unbind name) := by
  refine ⟨rfl, rfl, h.mono (Cache.erase_within names.cache name) fun name' id hcached => ?_⟩
  have hne : name ≠ name' := (ne_and_cached?_of_forget hcached).1
  exact Rows.get?_erase_of_ne names.rows (Layout.nameKey_ne hne)

end Names

end EntityCatalog
