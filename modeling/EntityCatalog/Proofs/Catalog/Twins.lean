import EntityCatalog.Proofs.Catalog.Effects
import EntityCatalog.Proofs.Names.Twins

/-!
# Catalogs that differ in their caches alone

What holds of registries holds of the catalogs over them. An operation looks, and then writes rows that
are not name rows, moves a name, or draws a version; twins do all of this alike. A look leaves each
catalog a twin of what it was.
-/

namespace EntityCatalog

namespace Catalog

/-- Two catalogs that differ in nothing but the caches of their registries, both of which are
faithful. -/
structure Twins (catalog catalog' : Catalog) : Prop where
  names : catalog.names.Twins catalog'.names
  versions : catalog.versions = catalog'.versions
  clock : catalog.clock = catalog'.clock
  refusals : catalog.refusals = catalog'.refusals

namespace Twins

variable {catalog catalog' catalog'' : Catalog}

/-- A catalog with a faithful cache is a twin of itself. -/
theorem refl (h : catalog.names.Faithful) : Twins catalog catalog := ⟨.refl h, rfl, rfl, rfl⟩

/-- Twins are twins either way. -/
theorem symm (h : Twins catalog catalog') : Twins catalog' catalog :=
  ⟨h.names.symm, h.versions.symm, h.clock.symm, h.refusals.symm⟩

/-- A twin of a twin is a twin. -/
theorem trans (h : Twins catalog catalog') (h' : Twins catalog' catalog'') : Twins catalog catalog'' :=
  ⟨h.names.trans h'.names, h.versions.trans h'.versions, h.clock.trans h'.clock,
    h.refusals.trans h'.refusals⟩

instance : Std.Symm Twins := ⟨fun _ _ => symm⟩

instance : IsTrans Catalog Twins := ⟨fun _ _ _ => trans⟩

/-- The first of two twins is a twin of itself. -/
theorem refl_left (h : Twins catalog catalog') : Twins catalog catalog := .refl h.names.faithful

/-- The second of two twins is a twin of itself. -/
theorem refl_right (h : Twins catalog catalog') : Twins catalog' catalog' := .refl h.names.faithful'

/-- Twins have the same rows. -/
theorem rows (h : Twins catalog catalog') : catalog.rows = catalog'.rows := h.names.rows

/-- Twins over other rows are twins if the name rows stay as they are. -/
theorem withRows (h : Twins catalog catalog') {rows : Rows}
    (hrows : ∀ name, rows.get? (Layout.nameKey name) = catalog.rows.get? (Layout.nameKey name)) :
    Twins (catalog.withRows rows) (catalog'.withRows rows) :=
  ⟨h.names.withRows hrows, h.versions, h.clock, h.refusals⟩

/-- An operation that treats twin registries alike treats twin catalogs alike. -/
theorem onNames (h : Twins catalog catalog') {α : Type} {operation : Names → α × Names}
    (hoperation : Alike Names.Twins (operation catalog.names) (operation catalog'.names)) :
    Alike Twins (catalog.onNames operation) (catalog'.onNames operation) :=
  ⟨hoperation.answer, hoperation.after, h.versions, h.clock, h.refusals⟩

/-- An operation that only glimpses at twin registries only glimpses at twin catalogs. -/
theorem onNames_glimpse {α : Type} {operation : Names → α × Names}
    (hoperation : Glimpse Names.Twins catalog.names catalog'.names (operation catalog.names)
      (operation catalog'.names)) :
    Glimpse Twins catalog catalog' (catalog.onNames operation) (catalog'.onNames operation) :=
  ⟨hoperation.answer, ⟨hoperation.kept, rfl, rfl, rfl⟩, ⟨hoperation.kept', rfl, rfl, rfl⟩⟩

/-- Twins draw the same version. -/
theorem nextVersion (h : Twins catalog catalog') :
    Alike Twins catalog.nextVersion catalog'.nextVersion := by
  rw [Catalog.nextVersion, Catalog.nextVersion, ← h.versions, ← h.clock]
  exact ⟨rfl, h.names, rfl, rfl, h.refusals⟩

/-! ## Looks -/

/-- Twins load the same entity, and only look at it. -/
theorem load (h : Twins catalog catalog') (address : Address) :
    Glimpse Twins catalog catalog' (catalog.load address) (catalog'.load address) := by
  obtain ⟨answer, after, after', heq, heq', hkept, hkept'⟩ :=
    (onNames_glimpse (address.findKey_glimpse h.names)).exists_eq
  have hafter : Twins after after' := hkept.symm.trans (h.trans hkept')
  rw [Catalog.load, Catalog.load, heq, heq']
  rcases answer with fault | _ | key
  · exact ⟨rfl, hkept, hkept'⟩
  · exact ⟨rfl, hkept, hkept'⟩
  · dsimp only
    rw [← hafter.rows]
    split <;> exact ⟨rfl, hkept, hkept'⟩

/-- Twins get the same of what may be absent, and only look at it. -/
theorem get? (h : Twins catalog catalog') (address : Address) :
    Glimpse Twins catalog catalog' (catalog.get? address) (catalog'.get? address) := by
  rw [Catalog.get?, Catalog.get?]
  split
  · exact ⟨rfl, h.refl_left, h.refl_right⟩
  · exact (h.load address).map _

/-- Twins get the same entity, and only look at it. -/
theorem get (h : Twins catalog catalog') (address : Address) :
    Glimpse Twins catalog catalog' (catalog.get address) (catalog'.get address) := by
  obtain ⟨answer, after, after', heq, heq', hkept, hkept'⟩ := (h.get? address).exists_eq
  rw [Catalog.get, Catalog.get, heq, heq']
  rcases answer with fault | _ | record <;> exact ⟨rfl, hkept, hkept'⟩

/-- Twins agree whether an entity is there, and only look for it. -/
theorem contains (h : Twins catalog catalog') (address : Address) :
    Glimpse Twins catalog catalog' (catalog.contains address) (catalog'.contains address) :=
  (h.get? address).map _

/-- Twins list the same entities, and only look at them. -/
theorem list (h : Twins catalog catalog') (levels : List String) (kind : Kind) (limit : Option Nat) :
    Glimpse Twins catalog catalog' (catalog.list levels kind limit)
      (catalog'.list levels kind limit) := by
  obtain ⟨answer, after, after', heq, heq', hkept, hkept'⟩ :=
    (onNames_glimpse (Address.findKey_glimpse ⟨.wildcard levels, kind⟩ h.names)).exists_eq
  have hafter : Twins after after' := hkept.symm.trans (h.trans hkept')
  rw [Catalog.list, Catalog.list, heq, heq']
  rcases answer with fault | _ | key
  · exact ⟨rfl, hkept, hkept'⟩
  · exact ⟨rfl, hkept, hkept'⟩
  · dsimp only
    rw [← hafter.rows]
    exact ⟨rfl, hkept, hkept'⟩

/-! ## Puts and removals -/

/-- Twins store a record alike. -/
theorem store (h : Twins catalog catalog') (address : Address) (key : Key) (record : Record)
    (overwrite : Bool) :
    Alike Twins (catalog.store address key.encode record overwrite)
      (catalog'.store address key.encode record overwrite) := by
  rw [Catalog.store, Catalog.store, ← h.rows]
  split
  · exact ⟨rfl, h.withRows fun name =>
      Rows.get?_insert_of_ne _ _ (Layout.encode_ne_nameKey key name)⟩
  · have hrows : ∀ name, (catalog.rows.insertNew key.encode record.encode).2.get?
        (Layout.nameKey name) = catalog.rows.get? (Layout.nameKey name) := by
      refine fun name => Rows.get?_batch_of_not_touches _ fun change hchange => ?_
      rw [List.mem_singleton.mp hchange]
      exact Layout.encode_ne_nameKey key name
    cases hinsert : catalog.rows.insertNew key.encode record.encode with
    | mk done rows =>
      rw [hinsert] at hrows
      cases done with
      | true => exact ⟨rfl, h.withRows hrows⟩
      | false => exact ⟨rfl, h⟩

/-- Twins put an entity alike. -/
theorem put (h : Twins catalog catalog') (address : Address) (payload : Bytes) (overwrite : Bool) :
    Alike Twins (catalog.put address payload overwrite) (catalog'.put address payload overwrite) := by
  rw [Catalog.put, Catalog.put]
  split
  · exact ⟨rfl, h⟩
  · obtain ⟨answer, bound, bound', heq, heq', hbound⟩ :=
      (h.onNames (address.resolveKey_alike h.names)).exists_eq
    rw [heq, heq']
    cases answer with
    | error fault => exact ⟨rfl, hbound⟩
    | ok key =>
      obtain ⟨drawn, next, next', hnext, hnext', hafter⟩ := hbound.nextVersion.exists_eq
      dsimp only
      rw [hnext, hnext']
      cases drawn with
      | error fault => exact ⟨rfl, hafter⟩
      | ok version => exact hafter.store address key ⟨version, payload⟩ overwrite

/-- Twins delete an entity alike. -/
theorem delete (h : Twins catalog catalog') (address : Address) (cascade : Bool) :
    Alike Twins (catalog.delete address cascade) (catalog'.delete address cascade) := by
  rw [Catalog.delete, Catalog.delete]
  cases hsingle : single address.path with
  | error fault => exact ⟨rfl, h⟩
  | ok =>
    have hconcrete := (single_eq_ok_iff address.path).mp hsingle
    obtain ⟨answer, loaded, loaded', heq, heq', hloaded⟩ := ((h.load address).alike h).exists_eq
    dsimp only
    rw [heq, heq']
    rcases answer with fault | _ | ⟨bytes, current⟩
    · exact ⟨rfl, hloaded⟩
    · exact ⟨rfl, hloaded⟩
    · obtain ⟨ids, rfl⟩ := keyOf_of_load (congrArg Prod.fst heq)
      dsimp only
      rw [← hloaded.rows]
      split
      · exact ⟨rfl, hloaded⟩
      · refine ⟨rfl, hloaded.withRows fun name => ?_⟩
        rw [Address.keyOf, hconcrete]
        exact get?_batch_removal_of_getElem? loaded.rows address.kind ids
          (Layout.nameKey_getElem? name) (by decide)

/-! ## Updates -/

/-- Twins find the same left behind under a name. -/
theorem leftover (h : Twins catalog catalog') (target : Address) (name : String) :
    Alike Twins (catalog.leftover target name) (catalog'.leftover target name) := by
  obtain ⟨answer, found, found', heq, heq', hfound⟩ :=
    ((onNames_glimpse (target.findKey_glimpse h.names)).alike h).exists_eq
  rw [Catalog.leftover, Catalog.leftover, heq, heq']
  rcases answer with fault | _ | key
  · exact ⟨rfl, hfound⟩
  · exact ⟨rfl, hfound⟩
  · dsimp only
    rw [← hfound.rows]
    split
    · exact ⟨rfl, hfound⟩
    · exact hfound.onNames ((hfound.names.find? name).alike hfound.names)

/-- Twins work out the same move between two addresses. -/
theorem moveBetween (h : Twins catalog catalog') (address target : Address) :
    Alike Twins (catalog.moveBetween address target) (catalog'.moveBetween address target) := by
  obtain ⟨old, first, first', heq, heq', hfirst⟩ :=
    ((onNames_glimpse (address.findName_glimpse h.names)).alike h).exists_eq
  rw [Catalog.moveBetween, Catalog.moveBetween, heq, heq']
  cases old with
  | error fault => exact ⟨rfl, hfirst⟩
  | ok old =>
    obtain ⟨new, second, second', hnew, hnew', hsecond⟩ :=
      ((onNames_glimpse (target.findName_glimpse hfirst.names)).alike hfirst).exists_eq
    dsimp only
    rw [hnew, hnew']
    cases new with
    | error fault => exact ⟨rfl, hsecond⟩
    | ok new =>
      dsimp only
      split
      · rename_i old new
        obtain ⟨replaced, third, third', hleft, hleft', hthird⟩ :=
          (hsecond.leftover target new).exists_eq
        rw [hleft, hleft']
        cases replaced <;> exact ⟨rfl, hthird⟩
      · exact ⟨rfl, hsecond⟩

/-- Twins plan the same move. -/
theorem planMove (h : Twins catalog catalog') (address : Address) (name : String) :
    Alike Twins (catalog.planMove address name) (catalog'.planMove address name) := by
  rw [Catalog.planMove, Catalog.planMove]
  dsimp only
  split
  · exact ⟨rfl, h⟩
  · obtain ⟨answer, looked, looked', heq, heq', hlooked⟩ :=
      ((h.contains ⟨address.path.withName name, address.kind⟩).alike h).exists_eq
    rw [heq, heq']
    rcases answer with fault | _ | _
    · exact ⟨rfl, hlooked⟩
    · exact hlooked.moveBetween address _
    · exact ⟨rfl, hlooked⟩

/-- Twins plan the same update. -/
theorem planUpdate (h : Twins catalog catalog') (address : Address) (update : Update) :
    Alike Twins (catalog.planUpdate address update) (catalog'.planUpdate address update) := by
  rw [Catalog.planUpdate, Catalog.planUpdate]
  split
  · exact ⟨rfl, h⟩
  · split
    · exact ⟨rfl, h⟩
    · exact (h.planMove address _).map _

/-- Twins commit an update alike. -/
theorem commitUpdate (h : Twins catalog catalog') (address : Address) (key : Key) (record : Record)
    (move : Option Move) :
    Alike Twins (catalog.commitUpdate address key.encode record move)
      (catalog'.commitUpdate address key.encode record move) := by
  have hwrite : SparesNames [.put key.encode record.encode] := by
    intro change hchange name
    rw [List.mem_singleton.mp hchange]
    exact Layout.encode_ne_nameKey key name
  cases move with
  | none =>
    rw [Catalog.commitUpdate, Catalog.commitUpdate, ← h.rows]
    exact ⟨rfl, h.withRows fun name =>
      Rows.get?_batch_of_not_touches _ fun change hchange => hwrite change hchange name⟩
  | some move =>
    have hrename : Alike Twins
        (catalog.onNames (·.renameWith move.old move.new move.replaced [.put key.encode record.encode]))
        (catalog'.onNames (·.renameWith move.old move.new move.replaced [.put key.encode record.encode])) :=
      h.onNames (h.names.renameWith move.old move.new move.replaced hwrite)
    obtain ⟨answer, after, after', heq, heq', hafter⟩ := hrename.exists_eq
    simp only [Catalog.commitUpdate, heq, heq']
    rcases answer with fault | _ | _ <;> exact ⟨rfl, hafter⟩

/-- Twins update an entity alike. -/
theorem update (h : Twins catalog catalog') (address : Address)
    (change : Record → Except Error Update) :
    Alike Twins (catalog.update address change) (catalog'.update address change) := by
  rw [Catalog.update, Catalog.update]
  split
  · exact ⟨rfl, h⟩
  · obtain ⟨answer, loaded, loaded', heq, heq', hloaded⟩ := ((h.load address).alike h).exists_eq
    rw [heq, heq']
    rcases answer with fault | _ | ⟨bytes, current⟩
    · exact ⟨rfl, hloaded⟩
    · exact ⟨rfl, hloaded⟩
    · obtain ⟨ids, rfl⟩ := keyOf_of_load (congrArg Prod.fst heq)
      dsimp only
      split
      · exact ⟨rfl, hloaded⟩
      · rename_i update _
        obtain ⟨move, planned, planned', hplan, hplan', hplanned⟩ :=
          (hloaded.planUpdate address update).exists_eq
        rw [hplan, hplan']
        cases move with
        | error fault => exact ⟨rfl, hplanned⟩
        | ok move =>
          obtain ⟨drawn, next, next', hnext, hnext', hafter⟩ := hplanned.nextVersion.exists_eq
          dsimp only
          rw [hnext, hnext']
          cases drawn with
          | error fault => exact ⟨rfl, hafter⟩
          | ok version => exact hafter.commitUpdate address _ ⟨version, update.payload⟩ move

end Twins

end Catalog

namespace Operation

/-- Whether an operation reads. -/
def isRead : Operation → Bool
  | get _ => true
  | contains _ => true
  | _ => false

variable {catalog catalog' : Catalog}

/-- Twins perform any operation alike. -/
theorem perform_alike (h : catalog.Twins catalog') (operation : Operation) :
    Alike Catalog.Twins (operation.perform catalog) (operation.perform catalog') := by
  cases operation with
  | get address => exact (h.get address).alike h
  | contains address => exact (h.contains address).alike h
  | put address payload overwrite => exact h.put address payload.bytes overwrite
  | update address revision => exact h.update address revision.change
  | delete address cascade => exact h.delete address cascade

/-- A catalog is a twin of what it was before a read. -/
theorem twins_of_isRead (h : catalog.names.Faithful) {operation : Operation}
    (hread : operation.isRead = true) : catalog.Twins (operation.perform catalog).2 := by
  have hrefl := Catalog.Twins.refl h
  cases operation with
  | get address => exact (hrefl.get address).kept
  | contains address => exact (hrefl.contains address).kept
  | _ => exact absurd hread Bool.false_ne_true

end Operation

end EntityCatalog
