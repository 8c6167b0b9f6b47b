import EntityCatalog.Proofs.Catalog.Rewriting

/-!
# A catalog is a finite map

A catalog that starts without rows keeps the promises of all its operations, however many went
before: it works on its contents as on a finite map from addresses to records. The surrogate ids,
the cache in front of them and the names that deleted entities left behind show nowhere but in the
want of free ids.
-/

namespace EntityCatalog

/-- A payload as it is held in memory. -/
structure Payload where
  bytes : Bytes
  fits : bytes.Fits

/-- A change of an entity whose new payloads are held in memory. -/
structure Revision where
  change : Record → Except Error Update
  fits : ∀ record update, change record = .ok update → update.payload.Fits

/-- What may be asked of a catalog about one entity. -/
inductive Operation where
  | get (address : Address)
  | contains (address : Address)
  | put (address : Address) (payload : Payload) (overwrite : Bool)
  | update (address : Address) (revision : Revision)
  | delete (address : Address) (cascade : Bool)

namespace Operation

/-- What an operation answers with when it succeeds. -/
def Outcome : Operation → Type
  | get _ => Record
  | contains _ => Bool
  | put _ _ _ => UInt64
  | update _ _ => Record
  | delete _ _ => Bool

/-- One operation on a catalog. -/
def perform : (operation : Operation) → Catalog → Except Error operation.Outcome × Catalog
  | get address, catalog => catalog.get address
  | contains address, catalog => catalog.contains address
  | put address payload overwrite, catalog => catalog.put address payload.bytes overwrite
  | update address revision, catalog => catalog.update address revision.change
  | delete address cascade, catalog => catalog.delete address cascade

/-- What an operation promises of its outcome and of the contents after it, given the contents
before it and the version that can be drawn. -/
def Meets (before after : Contents) (draw : Except Error UInt64) :
    (operation : Operation) → Except Error operation.Outcome → Prop
  | get address, outcome =>
    after = before ∧ outcome = address.checked.bind fun _ =>
      match before address with
      | some record => .ok record
      | none => .error (.noSuchEntity address.path)
  | contains address, outcome =>
    after = before ∧ outcome = address.checked.map fun _ => (before address).isSome
  | put address payload overwrite, outcome =>
    PutMeets before after draw address payload.bytes overwrite outcome
  | update address revision, outcome =>
    UpdateMeets before after draw address revision.change outcome
  | delete address cascade, outcome => DeleteMeets before after address cascade outcome

/-- The catalog after a list of operations in turn. -/
def performAll : List Operation → Catalog → Catalog
  | [], catalog => catalog
  | operation :: rest, catalog => performAll rest (operation.perform catalog).2

/-- Every operation on a sound catalog keeps its promise and leaves the catalog sound. -/
theorem perform_meets {catalog : Catalog} (h : catalog.Sound) (operation : Operation) :
    (operation.perform catalog).2.Sound ∧
      operation.Meets catalog.contents (operation.perform catalog).2.contents
        catalog.nextVersion.1 (operation.perform catalog).1 := by
  cases operation with
  | get address =>
    obtain ⟨hanswer, hlooked⟩ := Catalog.get_eq h address
    exact ⟨hlooked.sound h, hlooked.contents, hanswer⟩
  | contains address =>
    obtain ⟨hanswer, hlooked⟩ := Catalog.contains_eq h address
    exact ⟨hlooked.sound h, hlooked.contents, hanswer⟩
  | put address payload overwrite => exact Catalog.put_meets h address payload.fits overwrite
  | update address revision => exact Catalog.update_meets h address revision.fits
  | delete address cascade => exact Catalog.delete_meets h address cascade

/-- Any operations in turn leave a sound catalog sound. -/
theorem performAll_sound {catalog : Catalog} (h : catalog.Sound) (operations : List Operation) :
    (performAll operations catalog).Sound := by
  induction operations generalizing catalog with
  | nil => exact h
  | cons operation rest ih => exact ih (perform_meets h operation).1

end Operation

namespace Catalog

/-- A catalog without rows, with any cache, source of ids, generator and clock. -/
def blank (capacity : Nat) (idle : Idle) (ids : IdSource) (versions : TransactionIds)
    (clock : Clock) (refusals : Nat) : Catalog :=
  ⟨⟨.empty, .create capacity idle, ids⟩, versions, clock, refusals⟩

/-- A catalog without rows is sound. -/
theorem sound_blank (capacity : Nat) (idle : Idle) (ids : IdSource) (versions : TransactionIds)
    (clock : Clock) (refusals : Nat) : (blank capacity idle ids versions clock refusals).Sound :=
  ⟨.empty, .create .empty capacity idle ids⟩

/-- A catalog without rows has nothing at any address. -/
theorem contents_blank (capacity : Nat) (idle : Idle) (ids : IdSource) (versions : TransactionIds)
    (clock : Clock) (refusals : Nat) (address : Address) :
    (blank capacity idle ids versions clock refusals).contents address = none := by
  rw [contents, Address.record?]
  cases address.storedKey? (blank capacity idle ids versions clock refusals).rows with
  | none => rfl
  | some key => rfl

variable {catalog : Catalog}

/-- The contents are the records under the keys that are found. -/
theorem Sound.contents_eq_some_iff (h : catalog.Sound) (address : Address) (record : Record) :
    catalog.contents address = some record ↔
      ∃ key, (address.findKey catalog.names).1 = .ok (some key) ∧
        (catalog.rows.get? key.encode).bind Record.decode? = some record := by
  rw [contents, Address.record?, Option.bind_eq_some_iff]
  cases hlevels : address.levels with
  | error fault =>
    have hnone : address.storedKey? catalog.rows = none := by rw [Address.storedKey?, hlevels]
    simp [hnone, Address.findKey_of_error catalog.names hlevels]
  | ok kinds =>
    rw [(Address.findKey_eq h.faithful h.kept.consistent hlevels).1]
    simp only [Except.ok.injEq]
    rfl

/-- There are no more records than rows. -/
theorem Sound.exists_addresses (h : catalog.Sound) :
    ∃ addresses : List Address, ∀ address, catalog.contents address ≠ none → address ∈ addresses := by
  refine ⟨catalog.rows.toList.filterMap fun row => (Address.read catalog.rows row.1).toOption,
    fun address hpresent => ?_⟩
  obtain ⟨record, hrecord⟩ := Option.ne_none_iff_exists'.mp hpresent
  obtain ⟨key, hkey, hconcrete, -, hrow⟩ := (h.kept.record?_eq_some_iff address record).mp hrecord
  refine List.mem_filterMap.mpr ⟨(key.encode, record.encode), (Rows.mem_toList_iff _ _).mpr hrow, ?_⟩
  rw [Address.read_storedKey? h.kept.consistent hkey hconcrete]
  rfl

/-- After any operations on a catalog without rows, the contents are a finite map that every further
operation treats as it promises. -/
theorem performAll_refines (capacity : Nat) (idle : Idle) (ids : IdSource)
    (versions : TransactionIds) (clock : Clock) (refusals : Nat) (past : List Operation)
    (operation : Operation) :
    let start := blank capacity idle ids versions clock refusals
    let catalog := Operation.performAll past start
    (∀ address, start.contents address = none) ∧
    (∃ addresses : List Address, ∀ address,
      catalog.contents address ≠ none → address ∈ addresses) ∧
    (∀ address record, catalog.contents address = some record ↔
      ∃ key, (address.findKey catalog.names).1 = .ok (some key) ∧
        (catalog.rows.get? key.encode).bind Record.decode? = some record) ∧
    operation.Meets catalog.contents (operation.perform catalog).2.contents
      catalog.nextVersion.1 (operation.perform catalog).1 := by
  intro start catalog
  have hsound : catalog.Sound :=
    Operation.performAll_sound (sound_blank capacity idle ids versions clock refusals) past
  exact ⟨contents_blank capacity idle ids versions clock refusals, hsound.exists_addresses,
    hsound.contents_eq_some_iff, (Operation.perform_meets hsound operation).2⟩

/-- The address of a metalake. -/
def lake : Address := ⟨.root "lake", .metalake⟩

/-- The address of a catalog in it. -/
def lakeCat : Address := ⟨⟨["lake"], "cat"⟩, .catalog⟩

/-- A payload of one byte. -/
def oneByte : Payload := ⟨[0x63], by decide⟩

/-- A catalog without rows whose generator runs on the given clock and tolerance. -/
def running (clock : Clock) (maxSkew : UInt64) : Catalog :=
  blank 4 .endless (.countingFrom 0) ⟨⟨maxSkew, 3600000, 0⟩, 0, 0, true⟩ clock 0

/-- A catalog with an entity beneath an address without one. -/
def orphaned : Catalog :=
  Operation.performAll [.put lakeCat oneByte false] (running (.constant 1000) 2000)

/-- A catalog with an entity, whose clock then goes back beyond its tolerance. -/
def lagging : Catalog :=
  Operation.performAll [.put lake oneByte false] (running ⟨[100000, 0], 0⟩ 0)

/-- Three outcomes that the contents alone do not tell. What lies beneath an address without an
entity does not block its removal; a version that cannot be drawn hides that an entity is there; and
a path that fails the checks is not taken for that of an absent entity. -/
theorem outcomes_beyond_contents :
    (orphaned.contents lake = none ∧ lake.Beneath lakeCat ∧
      orphaned.contents lakeCat = some ⟨262144000, [0x63]⟩ ∧
      ((Operation.delete lake false).perform orphaned).1 = .ok false) ∧
    (lagging.contents lake = some ⟨26214400000, [0x63]⟩ ∧
      ((Operation.put lake oneByte false).perform lagging).1 = .error (.clockSkew 100000 0 0)) ∧
    ((Operation.get ⟨.wildcard [], .metalake⟩).perform orphaned).1 =
      .error (.invalidArgument (.manyEntities (.wildcard []))) :=
  ⟨⟨rfl, by decide, rfl, rfl⟩, ⟨rfl, rfl⟩, rfl⟩

end Catalog

end EntityCatalog
