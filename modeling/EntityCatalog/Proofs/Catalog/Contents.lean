import EntityCatalog.Proofs.Catalog.Lookup

/-!
# What operations promise about the contents

The contents of a catalog are a finite map from addresses to records. What a put, a removal and an
update promise is said of the contents before and after, of the version that could be drawn, and of
the outcome. A write replaces one record, a removal takes a whole subtree away, and a rename moves
one; an operation that fails leaves the contents as they were.
-/

namespace EntityCatalog

/-- A record at each address, or none. -/
abbrev Contents := Address → Option Record

namespace Contents

/-- The contents with another record at one address. -/
def write (contents : Contents) (address : Address) (record : Record) : Contents :=
  fun other => if other = address then some record else contents other

/-- The contents without the records at an address and beneath it. -/
def remove (contents : Contents) (address : Address) : Contents :=
  fun other => if other = address ∨ address.Beneath other then none else contents other

/-- The contents with the records at an address and beneath it moved to another name. -/
def move (contents : Contents) (address : Address) (name : String) : Contents :=
  fun other =>
    if other = address.renamed name ∨ (address.renamed name).Beneath other then
      contents (other.withSegment address.path.levels.length address.path.leaf)
    else if other = address ∨ address.Beneath other then none
    else contents other

/-- Whether there is an entity beneath an address. -/
def Populated (contents : Contents) (address : Address) : Prop :=
  ∃ other, address.Beneath other ∧ contents other ≠ none

end Contents

/-- What a put promises. A new record is stored under the version that was drawn. Over an entity
that is there it is stored only if that is allowed, and a new entity may also fail for want of ids
for the names on its path. -/
structure PutMeets (before after : Contents) (draw : Except Error UInt64) (address : Address)
    (payload : Bytes) (overwrite : Bool) (outcome : Except Error UInt64) : Prop where
  stored : ∀ version, outcome = .ok version →
    draw = .ok version ∧ after = before.write address ⟨version, payload⟩
  refused : ∀ fault, outcome = .error fault → after = before
  present : before address ≠ none →
    outcome = draw.bind fun version =>
      if overwrite then .ok version else .error (.entityExists address.path)
  absent : before address = none →
    outcome = address.checked.bind (fun _ => draw) ∨
      ∃ name, outcome = .error (.internal (.idsExhausted name Names.maxAttempts))

/-- What a removal promises. It takes the subtree of an entity away. There may be nothing to remove,
and what lies beneath an entity keeps it from being removed unless `cascade` allows that. -/
structure DeleteMeets (before after : Contents) (address : Address) (cascade : Bool)
    (outcome : Except Error Bool) : Prop where
  removed : outcome = .ok true → after = before.remove address
  refused : outcome ≠ .ok true → after = before
  absent : outcome = .ok false ↔ address.checked = .ok () ∧ before address = none
  blocked : outcome = .error (.hasSubEntities address.path) ↔
    before address ≠ none ∧ cascade = false ∧ before.Populated address
  unchecked : ∀ fault, address.checked = .error fault → outcome = .error fault
  allowed : before address ≠ none → cascade = true ∨ ¬ before.Populated address →
    outcome = .ok true

/-- What an update promises of an entity that is there, given what the change makes of it: without a
new name the record is replaced, and with one the entity moves with everything beneath it, to a
name that has to be free. -/
structure RewriteMeets (before after : Contents) (draw : Except Error UInt64) (address : Address)
    (update : Update) (outcome : Except Error Record) : Prop where
  kept : update.newName = none ∨ update.newName = some address.path.leaf →
    outcome = draw.map (fun version => ⟨version, update.payload⟩) ∧
      ∀ record, outcome = .ok record → after = before.write address record
  badName : ∀ name, update.newName = some name → name ≠ address.path.leaf →
    Address.isConcrete name = false → outcome = .error (.invalidArgument (.badName name))
  taken : ∀ name, update.newName = some name → name ≠ address.path.leaf →
    before (address.renamed name) ≠ none →
    outcome = .error (.entityExists (address.renamed name).path)
  occupied : ∀ name, update.newName = some name → name ≠ address.path.leaf →
    Address.isConcrete name = true → before (address.renamed name) = none →
    before.Populated (address.renamed name) →
    outcome = .error (.nameTaken (address.renamed name).path.text)
  moved : ∀ name, update.newName = some name → name ≠ address.path.leaf →
    Address.isConcrete name = true → before (address.renamed name) = none →
    ¬ before.Populated (address.renamed name) →
    outcome = draw.map (fun version => ⟨version, update.payload⟩) ∧
      ∀ record, outcome = .ok record → after = (before.write address record).move address name

/-- The promise for an update with one other name. -/
theorem RewriteMeets.of_newName {before after : Contents} {draw : Except Error UInt64}
    {address : Address} {update : Update} {outcome : Except Error Record} {name : String}
    (hname : update.newName = some name) (hne : name ≠ address.path.leaf)
    (hbad : Address.isConcrete name = false → outcome = .error (.invalidArgument (.badName name)))
    (htaken : before (address.renamed name) ≠ none →
      outcome = .error (.entityExists (address.renamed name).path))
    (hoccupied : Address.isConcrete name = true → before (address.renamed name) = none →
      before.Populated (address.renamed name) →
      outcome = .error (.nameTaken (address.renamed name).path.text))
    (hmoved : Address.isConcrete name = true → before (address.renamed name) = none →
      ¬ before.Populated (address.renamed name) →
      outcome = draw.map (fun version => ⟨version, update.payload⟩) ∧
        ∀ record, outcome = .ok record → after = (before.write address record).move address name) :
    RewriteMeets before after draw address update outcome := by
  have hsame : ∀ other, update.newName = some other → other = name :=
    fun other hother => Option.some.inj (hother.symm.trans hname)
  refine ⟨fun hkept => ?_, ?_, ?_, ?_, ?_⟩
  · rcases hkept with hnone | hleaf
    · exact absurd (hnone.symm.trans hname) (by simp)
    · exact absurd (hsame _ hleaf).symm hne
  all_goals
    intro other hother _
    rw [hsame other hother]
    assumption

/-- What an update promises. -/
structure UpdateMeets (before after : Contents) (draw : Except Error UInt64) (address : Address)
    (change : Record → Except Error Update) (outcome : Except Error Record) : Prop where
  refused : ∀ fault, outcome = .error fault → after = before
  absent : before address = none →
    outcome = address.checked.bind fun _ => .error (.noSuchEntity address.path)
  failed : ∀ current fault, before address = some current → change current = .error fault →
    outcome = .error fault
  rewritten : ∀ current update, before address = some current → change current = .ok update →
    RewriteMeets before after draw address update outcome

end EntityCatalog
