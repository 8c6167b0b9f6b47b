import EntityCatalog.Proofs.Catalog.Footprint
import EntityCatalog.Proofs.Session.Reachable

/-!
# The families of rows do not interfere

All rows share one order of keys. Still each family is written by the operations that own it: requests to
the registry and the resolving of keys write the books, a generator the mark, and the operations of a
catalog entity rows, next to the books when they bind or rename. This holds of any session, whatever its
rows hold and whatever is cached, because a key belongs to one family at most, and what extends a stem
that is listed, looked beneath or removed belongs to an entity.
-/

namespace EntityCatalog

open Rows (Confined)

/-- Whether a key belongs to a family. -/
def Family.Owns : Family → Bytes → Prop
  | mark, key => key = Layout.markKey
  | name, key => Layout.nameStem <+: key
  | id, key => Layout.idStem <+: key
  | entity, key => Layout.IsEntity key

namespace Family

/-- The third byte of a key tells its family. -/
theorem getElem?_of_owns {family : Family} {key : Bytes} (h : family.Owns key) :
    key[Key.codeWidth]? = some family.sign := by
  cases family with
  | mark => rw [show key = Layout.markKey from h]; exact Layout.markKey_getElem?
  | name =>
    obtain ⟨rest, rfl⟩ := h
    rfl
  | id =>
    obtain ⟨rest, rfl⟩ := h
    rfl
  | entity => exact Layout.getElem?_of_isEntity h

/-- A key belongs to one family at most. -/
theorem owns_unique {family family' : Family} {key : Bytes} (h : family.Owns key)
    (h' : family'.Owns key) : family = family' :=
  sign_injective (Option.some.inj ((getElem?_of_owns h).symm.trans (getElem?_of_owns h')))

end Family

/-- Writing the mark changes the key of the mark at most. -/
theorem Remarked.confined {rows rows' : Rows} (h : Remarked rows rows') :
    Confined (· = Layout.markKey) rows rows' := by
  rcases h with rfl | ⟨mark, rfl⟩
  · exact .refl _ _
  · exact .insert _ _ _

namespace Session

/-- What may write in a session: requests to the registry, the encoding of an address, a use of the
generator, and operations of the catalog. -/
inductive Write where
  | resolve (name : String)
  | rename (old new : String)
  | unbind (name : String)
  | encode (address : Address)
  | startIds (refusal : Option String)
  | nextId
  | flushIds
  | stopIds
  | put (address : Address) (payload : Bytes) (overwrite : Bool)
  | update (address : Address) (change : Record → Except Error Update)
  | delete (address : Address) (cascade : Bool)

/-- The session after its generator was flushed. -/
def flushIds (session : Session) : Session :=
  match session.generator.flush session.marks with
  | (_, generator, store) => { session.withMarks store with generator }

/-- The session after a write. An operation on a closed catalog does nothing. -/
def Write.run : Write → Session → Session
  | resolve name, session => (session.onNames (·.resolve name)).2
  | rename old new, session => (session.onNames (·.rename old new)).2
  | unbind name, session => (session.onNames (·.unbind name)).2
  | encode address, session => (session.onNames address.resolveKey).2
  | startIds refusal, session => (session.startIds refusal).2
  | nextId, session => session.nextId.2
  | flushIds, session => session.flushIds
  | stopIds, session => session.stopIds.2
  | put address payload overwrite, session =>
    session.onOpenCatalog (·.put address payload overwrite)
  | update address change, session => session.onOpenCatalog (·.update address change)
  | delete address cascade, session => session.onOpenCatalog (·.delete address cascade)

/-- The keys under which a write may change a row. -/
def Write.Footprint (session : Session) : Write → Bytes → Prop
  | resolve _ | rename _ _ | unbind _ | encode _ => Layout.IsBook
  | startIds _ | nextId | flushIds | stopIds => (· = Layout.markKey)
  | put address _ _ => fun other => Layout.IsBook other ∨
      ∃ key, (address.resolveKey session.names).1 = .ok key ∧ other = key.encode
  | update address change => fun other => ∃ versions, session.versions = some versions ∧
      Catalog.UpdateKey ⟨session.names, versions, session.clock, session.refusals⟩ address change other
  | delete _ _ => Layout.IsEntity

/-- The families that a write may change. -/
def Write.families : Write → List Family
  | resolve _ | rename _ _ | unbind _ | encode _ => [.name, .id]
  | startIds _ | nextId | flushIds | stopIds => [.mark]
  | put _ _ _ | update _ _ => [.name, .id, .entity]
  | delete _ _ => [.entity]

/-- An operation of the catalog writes where it writes over the generator of versions. -/
theorem confined_onOpenCatalog {session : Session} {α : Type} {operation : Catalog → α × Catalog}
    {keys : Bytes → Prop}
    (h : ∀ versions, session.versions = some versions → Confined keys session.rows
      (operation ⟨session.names, versions, session.clock, session.refusals⟩).2.rows) :
    Confined keys session.rows (session.onOpenCatalog operation).rows := by
  cases hversions : session.versions with
  | none =>
    rw [onOpenCatalog_of_none hversions]
    exact .refl _ _
  | some versions =>
    rw [onOpenCatalog_of_some hversions]
    exact h versions hversions

/-- A write changes rows within its footprint. -/
theorem Write.confined (write : Write) (session : Session) :
    Confined (write.Footprint session) session.rows (write.run session).rows := by
  cases write with
  | resolve name => exact (session.names.grows_resolve name).confined
  | rename old new =>
    exact (session.names.confined_rename old new).mono fun _ => Names.MoveKey.isBook
  | unbind name =>
    exact (session.names.confined_unbind name).mono fun _ hkey => hkey ▸ Layout.isBook_nameKey name
  | encode address => exact (address.grows_resolveKey session.names).confined
  | startIds refusal => exact .refl _ _
  | nextId => exact .refl _ _
  | flushIds => exact (TransactionIds.flush_remarked session.generator session.marks).confined
  | stopIds => exact (TransactionIds.stop_remarked session.generator session.marks).confined
  | put address payload overwrite =>
    exact confined_onOpenCatalog fun versions _ =>
      Catalog.confined_put ⟨session.names, versions, session.clock, session.refusals⟩ address payload
        overwrite
  | update address change =>
    exact confined_onOpenCatalog fun versions hversions =>
      (Catalog.confined_update _ address change).mono fun _ hkey => ⟨versions, hversions, hkey⟩
  | delete address cascade =>
    exact confined_onOpenCatalog fun _ _ => Catalog.confined_delete _ address cascade

/-- A footprint lies within the families of the write. -/
theorem Write.owns_of_footprint {write : Write} {session : Session} {key : Bytes}
    (h : write.Footprint session key) : ∃ family ∈ write.families, family.Owns key := by
  have hbooks {families : List Family} (hname : .name ∈ families) (hid : .id ∈ families)
      (hbook : Layout.IsBook key) : ∃ family ∈ families, family.Owns key := by
    rcases hbook with hname' | hid'
    · exact ⟨.name, hname, hname'⟩
    · exact ⟨.id, hid, hid'⟩
  cases write with
  | resolve | rename | unbind | encode => exact hbooks (by simp [families]) (by simp [families]) h
  | startIds | nextId | flushIds | stopIds => exact ⟨.mark, List.mem_singleton_self _, h⟩
  | put address payload overwrite =>
    rcases h with hbook | ⟨found, hresolve, rfl⟩
    · exact hbooks (by simp [families]) (by simp [families]) hbook
    · exact ⟨.entity, by simp [families],
        (Address.shaped_of_resolveKey hresolve).isEntity (List.prefix_refl _)⟩
  | update address change =>
    obtain ⟨versions, -, found, record, update, move, hfind, -, -, -, rfl | ⟨moved, -, hmove⟩⟩ := h
    · exact ⟨.entity, by simp [families],
        (Address.shaped_of_findKey hfind).isEntity (List.prefix_refl _)⟩
    · exact hbooks (by simp [families]) (by simp [families]) hmove.isBook
  | delete => exact ⟨.entity, List.mem_singleton_self _, h⟩

/-- The families of rows do not interfere. Any write changes rows within its footprint, and so no row of a
family that is not among its own. A key belongs to one family at most. Every key that extends the
wildcard key of a list belongs to an entity, and so does every key that extends a stem which is looked
beneath or removed. And the move that an update plans is between the name at its address and the new
name, both of them, with a faithful cache, in the scope of the entity whose id moves. -/
theorem families_never_interfere (session : Session) :
    (∀ write : Write, Confined (write.Footprint session) session.rows (write.run session).rows ∧
      ∀ family key, Family.Owns family key → family ∉ write.families →
        (write.run session).rows.get? key = session.rows.get? key) ∧
    (∀ (family family' : Family) key, family.Owns key → family'.Owns key → family = family') ∧
    (∀ levels kind key other,
      (Address.findKey ⟨.wildcard levels, kind⟩ session.names).1 = .ok (some key) →
      key.encode <+: other → Family.entity.Owns other) ∧
    (∀ (address : Address) key lower other, address.path.isWildcard = false →
      (address.findKey session.names).1 = .ok (some key) → lower ∈ address.kind.descendants →
      Key.stemBeneath key.encode lower <+: other → Family.entity.Owns other) ∧
    ∀ (catalog : Catalog) (address : Address) (key : Key) record update move,
      (catalog.load address).1 = .ok (some (key.encode, record)) →
      ((catalog.load address).2.planUpdate address update).1 = .ok (some move) →
      ∃ name above above', update.newName = some name ∧ name ≠ address.path.leaf ∧
        move.old = scopedName above address.kind address.path.leaf ∧
        move.new = scopedName above' address.kind name ∧
        (catalog.names.Faithful → above' = above ∧ ∃ id, key.ids = above ++ [id] ∧
          Names.storedId? catalog.rows move.old = .ok (some id)) := by
  refine ⟨fun write => ⟨write.confined session, fun family key howns hother => ?_⟩,
    fun _ _ _ => Family.owns_unique, fun levels kind key other hfind => ?_,
    fun address key lower other hconcrete hfind hlower hstem => ?_,
    fun _ _ _ _ _ _ => Catalog.move_of_planUpdate⟩
  · refine write.confined session key fun hfootprint => ?_
    obtain ⟨family', hmem, howns'⟩ := Write.owns_of_footprint hfootprint
    exact hother (Family.owns_unique howns howns' ▸ hmem)
  · exact (Address.shaped_of_findKey hfind).isEntity
  · obtain ⟨-, ids, rfl, -⟩ := Address.shaped_of_findKey hfind
    rw [Address.keyOf, hconcrete] at hstem
    exact Layout.isEntity_of_stemBeneath hlower hstem

end Session

end EntityCatalog
