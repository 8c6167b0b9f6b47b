import EntityCatalog.Proofs.Address.Effects
import EntityCatalog.Proofs.Catalog.Refinement

/-!
# What an operation writes

Whatever the rows hold and whatever is cached, an operation of a catalog writes at most one entity,
under the version that it drew for it. Before that it only looks, and a put may bind names. So an
operation that fails has written nothing but the names that a put bound.
-/

namespace EntityCatalog

namespace Catalog

/-- A catalog after an operation that drew no version and left the medium as it was. -/
structure Undrawn (catalog after : Catalog) : Prop where
  versions : after.versions = catalog.versions
  clock : after.clock = catalog.clock
  refusals : after.refusals = catalog.refusals

/-- A catalog after an operation that also changed no row. -/
structure Glanced (catalog after : Catalog) : Prop extends Undrawn catalog after where
  rows : after.rows = catalog.rows

/-- A catalog after an operation that drew a version and wrote a record under it. Next to the row of
the record it may have changed the books. -/
structure Wrote (catalog after : Catalog) (key : Key) (record : Record) : Prop where
  version : catalog.nextVersion.1 = .ok record.version
  drawn : catalog.nextVersion.2.Undrawn after
  rows : ∀ other, ¬ Layout.IsBook other →
    after.rows.get? other = (catalog.rows.insert key.encode record.encode).get? other

/-- A catalog after a removal: rows are gone, and the mark is not among them. -/
structure Removed (catalog after : Catalog) : Prop extends Undrawn catalog after where
  rows : ∀ other, after.rows.get? other = catalog.rows.get? other ∨ after.rows.get? other = none
  mark : after.rows.get? Layout.markKey = catalog.rows.get? Layout.markKey

/-- Nothing is drawn where nothing happens. -/
theorem Undrawn.refl (catalog : Catalog) : catalog.Undrawn catalog := ⟨rfl, rfl, rfl⟩

/-- Nothing is changed where nothing happens. -/
theorem Glanced.refl (catalog : Catalog) : catalog.Glanced catalog := ⟨.refl catalog, rfl⟩

variable {catalog mid after : Catalog}

/-- Nothing is drawn by two operations that draw nothing. -/
theorem Undrawn.trans (h : catalog.Undrawn mid) (h' : mid.Undrawn after) : catalog.Undrawn after :=
  ⟨h'.versions.trans h.versions, h'.clock.trans h.clock, h'.refusals.trans h.refusals⟩

/-- Nothing is changed by two operations that only look. -/
theorem Glanced.trans (h : catalog.Glanced mid) (h' : mid.Glanced after) : catalog.Glanced after :=
  ⟨h.toUndrawn.trans h'.toUndrawn, h'.rows.trans h.rows⟩

/-- The version that is drawn next does not depend on the registry. -/
theorem Undrawn.nextVersion (h : catalog.Undrawn after) :
    after.nextVersion.1 = catalog.nextVersion.1 ∧
      catalog.nextVersion.2.Undrawn after.nextVersion.2 := by
  obtain ⟨hversions, hclock, hrefusals⟩ := h
  refine ⟨?_, ⟨?_, ?_, hrefusals⟩⟩ <;> simp only [Catalog.nextVersion, hversions, hclock]

/-- Drawing a version changes no row. -/
theorem rows_nextVersion (catalog : Catalog) : catalog.nextVersion.2.rows = catalog.rows :=
  congrArg Names.rows (nextVersion_names catalog)

/-! ## Looks -/

/-- An operation on the registry that leaves its rows alone only looks. -/
theorem onNames_glanced {α : Type} (operation : Names → α × Names)
    (h : (operation catalog.names).2.rows = catalog.names.rows) :
    catalog.Glanced (catalog.onNames operation).2 :=
  ⟨⟨rfl, rfl, rfl⟩, h⟩

/-- Loading an entity only looks. -/
theorem load_glanced (catalog : Catalog) (address : Address) :
    catalog.Glanced (catalog.load address).2 := by
  have hfound := onNames_glanced address.findKey (address.rows_findKey catalog.names)
  rw [load]
  cases hfind : catalog.onNames address.findKey with
  | mk answer found =>
    rw [hfind] at hfound
    rcases answer with fault | _ | key
    · exact hfound
    · exact hfound
    · dsimp only
      split <;> exact hfound

/-- What is loaded is stored under the key that is found for the address. -/
theorem findKey_of_load {address : Address} {bytes : Bytes} {record : Record}
    (h : (catalog.load address).1 = .ok (some (bytes, record))) :
    ∃ key, (address.findKey catalog.names).1 = .ok (some key) ∧ bytes = key.encode := by
  rw [load, onNames] at h
  cases hfind : address.findKey catalog.names with
  | mk answer names =>
    rw [hfind] at h
    rcases answer with fault | _ | key
    · exact absurd h (by simp)
    · exact absurd h (by simp)
    · refine ⟨key, rfl, ?_⟩
      dsimp only at h
      split at h
      · exact absurd h (by simp)
      · rename_i value _
        cases hread : Record.read value with
        | error fault =>
          rw [hread] at h
          exact absurd h (by simp [Except.map])
        | ok record' =>
          rw [hread] at h
          exact (congrArg Prod.fst (Option.some.inj (Except.ok.inj h))).symm

/-- What is loaded is stored under a key of the address. -/
theorem keyOf_of_load {address : Address} {bytes : Bytes} {record : Record}
    (h : (catalog.load address).1 = .ok (some (bytes, record))) :
    ∃ ids, bytes = (address.keyOf ids).encode := by
  obtain ⟨key, hfind, rfl⟩ := findKey_of_load h
  obtain ⟨ids, rfl⟩ := Address.keyOf_of_findKey hfind
  exact ⟨ids, rfl⟩

/-- Getting what may be absent only looks. -/
theorem get?_glanced (catalog : Catalog) (address : Address) :
    catalog.Glanced (catalog.get? address).2 := by
  rw [get?]
  split
  · exact .refl catalog
  · exact load_glanced catalog address

/-- Getting an entity only looks. -/
theorem get_glanced (catalog : Catalog) (address : Address) :
    catalog.Glanced (catalog.get address).2 := by
  have hgot := get?_glanced catalog address
  rw [get]
  split <;> rename_i heq <;> rw [heq] at hgot <;> exact hgot

/-- Asking whether an entity is there only looks. -/
theorem contains_glanced (catalog : Catalog) (address : Address) :
    catalog.Glanced (catalog.contains address).2 :=
  get?_glanced catalog address

/-- Listing only looks. -/
theorem list_glanced (catalog : Catalog) (levels : List String) (kind : Kind)
    (limit : Option Nat) : catalog.Glanced (catalog.list levels kind limit).2 := by
  have hfound := onNames_glanced (Address.findKey ⟨.wildcard levels, kind⟩)
    (Address.rows_findKey _ catalog.names)
  rw [list]
  split <;> rename_i heq <;> rw [heq] at hfound <;> exact hfound

/-- Looking for what a name left behind only looks. -/
theorem leftover_glanced (catalog : Catalog) (target : Address) (name : String) :
    catalog.Glanced (catalog.leftover target name).2 := by
  have hfound := onNames_glanced target.findKey (target.rows_findKey catalog.names)
  rw [leftover]
  cases hfind : catalog.onNames target.findKey with
  | mk answer found =>
    rw [hfind] at hfound
    rcases answer with fault | _ | key
    · exact hfound
    · exact hfound
    · dsimp only
      split
      · exact hfound
      · exact hfound.trans (onNames_glanced _ (found.names.rows_find? name))

/-- Working out a move between two addresses only looks. -/
theorem moveBetween_glanced (catalog : Catalog) (address target : Address) :
    catalog.Glanced (catalog.moveBetween address target).2 := by
  have hfirst := onNames_glanced address.findName (address.rows_findName catalog.names)
  rw [moveBetween]
  cases hold : catalog.onNames address.findName with
  | mk old first =>
    rw [hold] at hfirst
    cases old with
    | error fault => exact hfirst
    | ok old =>
      have hsecond := hfirst.trans
        (onNames_glanced target.findName (target.rows_findName first.names))
      dsimp only
      cases hnew : first.onNames target.findName with
      | mk new second =>
        rw [hnew] at hsecond
        cases new with
        | error fault => exact hsecond
        | ok new =>
          dsimp only
          split
          · rename_i old new
            have hthird := hsecond.trans (leftover_glanced second target new)
            split <;> rename_i heq <;> rw [heq] at hthird <;> exact hthird
          · exact hsecond

/-- Planning a move only looks. -/
theorem planMove_glanced (catalog : Catalog) (address : Address) (name : String) :
    catalog.Glanced (catalog.planMove address name).2 := by
  rw [planMove]
  dsimp only
  split
  · exact .refl catalog
  · have hlooked := contains_glanced catalog ⟨address.path.withName name, address.kind⟩
    split <;> rename_i heq <;> rw [heq] at hlooked
    · exact hlooked
    · exact hlooked
    · exact hlooked.trans (moveBetween_glanced _ _ _)

/-- Planning an update only looks. -/
theorem planUpdate_glanced (catalog : Catalog) (address : Address) (update : Update) :
    catalog.Glanced (catalog.planUpdate address update).2 := by
  rw [planUpdate]
  split
  · exact .refl catalog
  · split
    · exact .refl catalog
    · exact planMove_glanced catalog address _

/-! ## Puts -/

/-- Storing a record writes its row, or fails and changes nothing. -/
theorem store_cases (catalog : Catalog) (address : Address) (key : Key) (record : Record)
    (overwrite : Bool) :
    ((catalog.store address key.encode record overwrite).1 = .ok record.version ∧
      (catalog.store address key.encode record overwrite).2 =
        catalog.withRows (catalog.rows.insert key.encode record.encode)) ∨
    (catalog.store address key.encode record overwrite).1 = .error (.entityExists address.path) ∧
      (catalog.store address key.encode record overwrite).2 = catalog ∧
      catalog.rows.get? key.encode ≠ none := by
  rw [store]
  cases overwrite with
  | true => exact Or.inl ⟨rfl, rfl⟩
  | false =>
    rw [if_neg Bool.false_ne_true]
    cases hrow : catalog.rows.get? key.encode with
    | none =>
      rw [Rows.insertNew_of_none record.encode hrow]
      exact Or.inl ⟨rfl, rfl⟩
    | some bytes =>
      rw [Rows.insertNew_of_some record.encode hrow]
      exact Or.inr ⟨rfl, rfl, by simp⟩

/-- Drawing a version and storing a record under it writes its row, or fails and changes no row. It
fails for want of a version or because the row is taken. -/
theorem storeWith_cases (catalog : Catalog) (address : Address) (key : Key) (payload : Bytes)
    (overwrite : Bool) :
    (∃ version, (catalog.storeWith address key.encode payload overwrite).1 = .ok version ∧
      catalog.Wrote (catalog.storeWith address key.encode payload overwrite).2 key
        ⟨version, payload⟩) ∨
    ∃ fault, (catalog.storeWith address key.encode payload overwrite).1 = .error fault ∧
      (catalog.storeWith address key.encode payload overwrite).2.rows = catalog.rows ∧
      catalog.nextVersion.2.Undrawn (catalog.storeWith address key.encode payload overwrite).2 ∧
      (catalog.nextVersion.1 = .error fault ∨ catalog.rows.get? key.encode ≠ none) := by
  have hrows := rows_nextVersion catalog
  rw [storeWith]
  cases hnext : catalog.nextVersion with
  | mk drawn next =>
    rw [hnext] at hrows
    cases drawn with
    | error fault => exact Or.inr ⟨fault, rfl, hrows, .refl next, Or.inl rfl⟩
    | ok version =>
      dsimp only
      rcases store_cases next address key ⟨version, payload⟩ overwrite with
        ⟨hok, hafter⟩ | ⟨hfault, hafter, htaken⟩
      · rw [hafter]
        refine Or.inl ⟨version, hok, by rw [hnext], by rw [hnext]; exact ⟨rfl, rfl, rfl⟩, ?_⟩
        intro other _
        rw [← hrows]
        rfl
      · rw [hafter]
        exact Or.inr ⟨_, hfault, hrows, .refl next, Or.inr (by rwa [hrows] at htaken)⟩

/-- A put whose key cannot be resolved has bound names at most. -/
theorem put_of_unresolved (catalog : Catalog) {address : Address} {fault : Error} (payload : Bytes)
    (overwrite : Bool) (hsingle : single address.path = .ok ())
    (hresolve : (address.resolveKey catalog.names).1 = .error fault) :
    catalog.put address payload overwrite =
      (.error fault, { catalog with names := (address.resolveKey catalog.names).2 }) := by
  rw [put, hsingle]
  simp only [onNames, hresolve]

/-- A put draws a version once its key is resolved and stores the record under it. -/
theorem put_of_resolved (catalog : Catalog) {address : Address} {key : Key} (payload : Bytes)
    (overwrite : Bool) (hsingle : single address.path = .ok ())
    (hresolve : (address.resolveKey catalog.names).1 = .ok key) :
    catalog.put address payload overwrite =
      storeWith { catalog with names := (address.resolveKey catalog.names).2 } address key.encode
        payload overwrite := by
  rw [put, hsingle]
  simp only [onNames, hresolve]
  rfl

/-- A put binds names, then draws a version, and then writes one entity. When it fails, the rows
have grown by the names that were bound. -/
theorem put_cases (catalog : Catalog) (address : Address) (payload : Bytes) (overwrite : Bool) :
    (∃ key version, (catalog.put address payload overwrite).1 = .ok version ∧
      catalog.Wrote (catalog.put address payload overwrite).2 key ⟨version, payload⟩) ∨
    (∃ fault, (catalog.put address payload overwrite).1 = .error fault) ∧
      Names.Grows catalog.rows (catalog.put address payload overwrite).2.rows ∧
      (catalog.Undrawn (catalog.put address payload overwrite).2 ∨
        catalog.nextVersion.2.Undrawn (catalog.put address payload overwrite).2) := by
  cases hsingle : single address.path with
  | error fault =>
    rw [put, hsingle]
    exact Or.inr ⟨⟨fault, rfl⟩, .refl, Or.inl (.refl catalog)⟩
  | ok =>
    have hgrows := address.grows_resolveKey catalog.names
    cases hresolve : (address.resolveKey catalog.names).1 with
    | error fault =>
      rw [put_of_unresolved catalog payload overwrite hsingle hresolve]
      exact Or.inr ⟨⟨fault, rfl⟩, hgrows, Or.inl ⟨rfl, rfl, rfl⟩⟩
    | ok key =>
      rw [put_of_resolved catalog payload overwrite hsingle hresolve]
      generalize hresolved : ({ catalog with names := (address.resolveKey catalog.names).2 } :
        Catalog) = resolved
      have hundrawn : catalog.Undrawn resolved := by
        rw [← hresolved]
        exact ⟨rfl, rfl, rfl⟩
      have hbound : Names.Grows catalog.rows resolved.rows := by
        rw [← hresolved]
        exact hgrows
      obtain ⟨hversion, hdrawn⟩ := hundrawn.nextVersion
      rcases storeWith_cases resolved address key payload overwrite with
        ⟨version, hok, hwrote⟩ | ⟨fault, hfault, hrows, hafter, -⟩
      · refine Or.inl ⟨key, version, hok, hversion.symm.trans hwrote.version,
          hdrawn.trans hwrote.drawn, fun other hother => ?_⟩
        rw [hwrote.rows other hother, Rows.get?_insert, Rows.get?_insert,
          hbound.get?_of_not_isBook hother]
      · exact Or.inr ⟨⟨fault, hfault⟩, by rw [hrows]; exact hbound, Or.inr (hdrawn.trans hafter)⟩

/-! ## Updates -/

/-- Committing an update writes the record, next to the books that a move changes, or fails and
changes no row. It draws no version. -/
theorem commitUpdate_cases (catalog : Catalog) (address : Address) (key : Key) (record : Record)
    (move : Option Move) :
    catalog.Undrawn (catalog.commitUpdate address key.encode record move).2 ∧
    ((catalog.commitUpdate address key.encode record move).1 = .ok record ∧
        (∀ other, ¬ Layout.IsBook other →
          (catalog.commitUpdate address key.encode record move).2.rows.get? other =
            (catalog.rows.insert key.encode record.encode).get? other) ∨
      (∃ fault, (catalog.commitUpdate address key.encode record move).1 = .error fault) ∧
        (catalog.commitUpdate address key.encode record move).2.rows = catalog.rows) := by
  cases move with
  | none => exact ⟨⟨rfl, rfl, rfl⟩, Or.inl ⟨rfl, fun _ _ => rfl⟩⟩
  | some move =>
    rw [commitUpdate]
    have hrenamed := catalog.names.renameWith_cases move.old move.new move.replaced
      [.put key.encode record.encode]
    cases hrename : catalog.onNames
        (·.renameWith move.old move.new move.replaced [.put key.encode record.encode]) with
    | mk answer after =>
      have hanswer : (catalog.names.renameWith move.old move.new move.replaced
          [.put key.encode record.encode]).1 = answer := congrArg Prod.fst hrename
      have hafter : after = { catalog with names := (catalog.names.renameWith move.old move.new
          move.replaced [.put key.encode record.encode]).2 } := (congrArg Prod.snd hrename).symm
      have hundrawn : catalog.Undrawn after := by
        rw [hafter]
        exact ⟨rfl, rfl, rfl⟩
      have hrows : after.rows = (catalog.names.renameWith move.old move.new move.replaced
          [.put key.encode record.encode]).2.rows := by
        rw [hafter]
        rfl
      rw [hanswer, ← hrows] at hrenamed
      rcases hrenamed with ⟨rfl, mid, hmid, hsame⟩ | ⟨hrefused, hsame⟩
      · obtain rfl := Option.some.inj hmid
        exact ⟨hundrawn, Or.inl ⟨rfl, hsame⟩⟩
      · rcases answer with fault | made
        · exact ⟨hundrawn, Or.inr ⟨⟨fault, rfl⟩, hsame⟩⟩
        · cases made with
          | true => exact absurd rfl hrefused
          | false => exact ⟨hundrawn, Or.inr ⟨⟨_, rfl⟩, hsame⟩⟩

/-- A rewrite draws a version and writes the record under it, or it fails and changes no row. -/
theorem rewriteWith_cases (catalog : Catalog) (address : Address) (key : Key) (payload : Bytes)
    (move : Option Move) :
    (∃ record, (catalog.rewriteWith address key.encode payload move).1 = .ok record ∧
      catalog.Wrote (catalog.rewriteWith address key.encode payload move).2 key record) ∨
    (∃ fault, (catalog.rewriteWith address key.encode payload move).1 = .error fault) ∧
      (catalog.rewriteWith address key.encode payload move).2.rows = catalog.rows ∧
      catalog.nextVersion.2.Undrawn (catalog.rewriteWith address key.encode payload move).2 := by
  have hrows := rows_nextVersion catalog
  rw [rewriteWith]
  cases hnext : catalog.nextVersion with
  | mk drawn next =>
    rw [hnext] at hrows
    cases drawn with
    | error fault => exact Or.inr ⟨⟨fault, rfl⟩, hrows, .refl next⟩
    | ok version =>
      obtain ⟨hundrawn, ⟨hok, hwritten⟩ | ⟨hfault, hsame⟩⟩ :=
        commitUpdate_cases next address key ⟨version, payload⟩ move
      · refine Or.inl ⟨⟨version, payload⟩, hok, by rw [hnext], by rw [hnext]; exact hundrawn, ?_⟩
        intro other hother
        rw [hwritten other hother, hrows]
      · exact Or.inr ⟨hfault, hsame.trans hrows, hundrawn⟩

/-- Looking before a write changes nothing of what the write does. -/
theorem Glanced.wrote {key : Key} {record : Record} (h : catalog.Glanced mid)
    (hwrote : mid.Wrote after key record) : catalog.Wrote after key record := by
  obtain ⟨hversion, hdrawn⟩ := h.toUndrawn.nextVersion
  refine ⟨hversion.symm.trans hwrote.version, hdrawn.trans hwrote.drawn, fun other hother => ?_⟩
  rw [hwrote.rows other hother, h.rows]

/-- What is left of an update once its entity is loaded writes the new record, or it fails and changes
no row. -/
theorem reviseWith_cases (catalog : Catalog) (address : Address) (key : Key) (update : Update) :
    (∃ record, (catalog.reviseWith address key.encode update).1 = .ok record ∧
      catalog.Wrote (catalog.reviseWith address key.encode update).2 key record) ∨
    (∃ fault, (catalog.reviseWith address key.encode update).1 = .error fault) ∧
      (catalog.reviseWith address key.encode update).2.rows = catalog.rows ∧
      (catalog.Undrawn (catalog.reviseWith address key.encode update).2 ∨
        catalog.nextVersion.2.Undrawn (catalog.reviseWith address key.encode update).2) := by
  have hplanned := planUpdate_glanced catalog address update
  rw [reviseWith]
  cases hplan : catalog.planUpdate address update with
  | mk answer planned =>
    rw [hplan] at hplanned
    cases answer with
    | error fault => exact Or.inr ⟨⟨fault, rfl⟩, hplanned.rows, Or.inl hplanned.toUndrawn⟩
    | ok move =>
      rcases rewriteWith_cases planned address key update.payload move with
        ⟨record, hok, hwrote⟩ | ⟨hfault, hsame, hdrawn⟩
      · exact Or.inl ⟨record, hok, hplanned.wrote hwrote⟩
      · exact Or.inr ⟨hfault, hsame.trans hplanned.rows,
          Or.inr (hplanned.toUndrawn.nextVersion.2.trans hdrawn)⟩

/-- An update draws a version and writes one entity under it, or it fails and changes no row. -/
theorem update_cases (catalog : Catalog) (address : Address)
    (change : Record → Except Error Update) :
    (∃ key record, (catalog.update address change).1 = .ok record ∧
      catalog.Wrote (catalog.update address change).2 key record) ∨
    (∃ fault, (catalog.update address change).1 = .error fault) ∧
      (catalog.update address change).2.rows = catalog.rows ∧
      (catalog.Undrawn (catalog.update address change).2 ∨
        catalog.nextVersion.2.Undrawn (catalog.update address change).2) := by
  rw [update]
  cases hsingle : single address.path with
  | error fault => exact Or.inr ⟨⟨fault, rfl⟩, rfl, Or.inl (.refl catalog)⟩
  | ok =>
    have hloaded := load_glanced catalog address
    dsimp only
    cases hload : catalog.load address with
    | mk answer loaded =>
      rw [hload] at hloaded
      rcases answer with fault | _ | ⟨bytes, current⟩
      · exact Or.inr ⟨⟨fault, rfl⟩, hloaded.rows, Or.inl hloaded.toUndrawn⟩
      · exact Or.inr ⟨⟨_, rfl⟩, hloaded.rows, Or.inl hloaded.toUndrawn⟩
      · obtain ⟨ids, rfl⟩ := keyOf_of_load (congrArg Prod.fst hload)
        dsimp only
        cases change current with
        | error fault => exact Or.inr ⟨⟨fault, rfl⟩, hloaded.rows, Or.inl hloaded.toUndrawn⟩
        | ok update =>
          rcases reviseWith_cases loaded address (address.keyOf ids) update with
            ⟨record, hok, hwrote⟩ | ⟨hfault, hsame, hdrawn⟩
          · exact Or.inl ⟨_, record, hok, hloaded.wrote hwrote⟩
          · exact Or.inr ⟨hfault, hsame.trans hloaded.rows,
              hdrawn.imp hloaded.toUndrawn.trans hloaded.toUndrawn.nextVersion.2.trans⟩

/-! ## Removals -/

/-- A removal is a look, or it takes away the row of the key that is found and what is beneath it. -/
theorem delete_inv (catalog : Catalog) (address : Address) (cascade : Bool) :
    (catalog.delete address cascade).1 ≠ .ok true ∧
      catalog.Glanced (catalog.delete address cascade).2 ∨
    ∃ ids, (address.findKey catalog.names).1 = .ok (some ⟨address.kind, ids, false⟩) ∧
      catalog.Glanced (catalog.load address).2 ∧
      (catalog.delete address cascade).1 = .ok true ∧
      (catalog.delete address cascade).2 = (catalog.load address).2.withRows
        (catalog.rows.batch (removal (Key.encode ⟨address.kind, ids, false⟩) address.kind)).2 := by
  rw [delete]
  cases hsingle : single address.path with
  | error fault => exact Or.inl ⟨by simp, .refl catalog⟩
  | ok =>
    have hconcrete := (single_eq_ok_iff address.path).mp hsingle
    have hloaded := load_glanced catalog address
    dsimp only
    cases hload : catalog.load address with
    | mk answer loaded =>
      rw [hload] at hloaded
      rcases answer with fault | _ | ⟨bytes, current⟩
      · exact Or.inl ⟨by simp, hloaded⟩
      · exact Or.inl ⟨by simp, hloaded⟩
      · obtain ⟨key, hfind, rfl⟩ := findKey_of_load (congrArg Prod.fst hload)
        obtain ⟨ids, hids⟩ := Address.keyOf_of_findKey hfind
        obtain rfl : key = ⟨address.kind, ids, false⟩ := by rw [hids, Address.keyOf, hconcrete]
        dsimp only
        split
        · exact Or.inl ⟨by simp, hloaded⟩
        · exact Or.inr ⟨ids, hfind, hloaded, rfl, by rw [← hloaded.rows]⟩

/-- A removal takes rows away when it answers so, and otherwise it is a look. -/
theorem delete_cases (catalog : Catalog) (address : Address) (cascade : Bool) :
    ((catalog.delete address cascade).1 = .ok true ∧
      catalog.Removed (catalog.delete address cascade).2) ∨
    (catalog.delete address cascade).1 ≠ .ok true ∧
      catalog.Glanced (catalog.delete address cascade).2 := by
  rcases delete_inv catalog address cascade with hlook | ⟨ids, -, hloaded, hanswer, hafter⟩
  · exact Or.inr hlook
  · rw [hafter]
    refine Or.inl ⟨hanswer, ⟨hloaded.versions, hloaded.clock, hloaded.refusals⟩, fun other => ?_, ?_⟩
    · have hremoved := get?_batch_removal catalog.rows (Key.encode ⟨address.kind, ids, false⟩)
        address.kind other
      split at hremoved
      · exact Or.inr hremoved
      · exact Or.inl hremoved
    · exact get?_batch_removal_of_getElem? catalog.rows address.kind ids Layout.markKey_getElem?
        (by decide)

end Catalog

namespace Operation

/-- The version that an operation has returned, if it has written an entity. -/
def version? : (operation : Operation) → Except Error operation.Outcome → Option UInt64
  | .put _ _ _, .ok version => some version
  | .update _ _, .ok record => some record.version
  | _, _ => none

/-- What an operation does to a catalog, with the version that it returns: it binds names at most, or
removes entities, or writes one entity under the version that it drew. -/
inductive Performed (catalog after : Catalog) : Option UInt64 → Prop where
  | spared (hgrows : Names.Grows catalog.rows after.rows)
      (hdrawn : catalog.Undrawn after ∨ catalog.nextVersion.2.Undrawn after) :
      Performed catalog after none
  | removed (h : catalog.Removed after) : Performed catalog after none
  | wrote (key : Key) (record : Record) (h : catalog.Wrote after key record) :
      Performed catalog after (some record.version)

/-- A look spares everything. -/
theorem Performed.of_glanced {catalog after : Catalog} (h : catalog.Glanced after) :
    Performed catalog after none := by
  refine .spared ?_ (Or.inl h.toUndrawn)
  rw [h.rows]
  exact .refl

/-- Every operation binds names at most, or removes entities, or writes one entity under its version. -/
theorem performed (operation : Operation) (catalog : Catalog) :
    Performed catalog (operation.perform catalog).2
      (operation.version? (operation.perform catalog).1) := by
  cases operation with
  | get address => exact .of_glanced (Catalog.get_glanced catalog address)
  | contains address => exact .of_glanced (Catalog.contains_glanced catalog address)
  | put address payload overwrite =>
    rw [perform]
    rcases Catalog.put_cases catalog address payload.bytes overwrite with
      ⟨key, version, hok, hwrote⟩ | ⟨⟨fault, hfault⟩, hgrows, hdrawn⟩
    · rw [hok]
      exact .wrote key ⟨version, payload.bytes⟩ hwrote
    · rw [hfault]
      exact .spared hgrows hdrawn
  | update address revision =>
    rw [perform]
    rcases Catalog.update_cases catalog address revision.change with
      ⟨key, record, hok, hwrote⟩ | ⟨⟨fault, hfault⟩, hrows, hdrawn⟩
    · rw [hok]
      exact .wrote key record hwrote
    · rw [hfault]
      refine .spared ?_ hdrawn
      rw [hrows]
      exact .refl
  | delete address cascade =>
    rcases Catalog.delete_cases catalog address cascade with ⟨-, hremoved⟩ | ⟨-, hglanced⟩
    · exact .removed hremoved
    · exact .of_glanced hglanced

end Operation

end EntityCatalog
