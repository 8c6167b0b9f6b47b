import EntityCatalog.Catalog.Open

/-!
# Sessions

A session holds one store open with everything that works on it: a registry of names, a
generator of transaction ids, and at times a catalog, which shares the registry and the clock
but has a generator of its own. Reopening leaves only the rows: both generators are stopped and
the registry starts with an empty cache.
-/

namespace EntityCatalog

/-- What is open over one store. The catalog is there when its generator is. -/
structure Session where
  config : Config
  names : Names
  clock : Clock
  refusals : Nat
  generator : TransactionIds
  versions : Option TransactionIds

namespace Session

/-- A session over the rows, with a stopped generator and no catalog. -/
def create (config : Config) (rows : Rows) (ids : IdSource) (clock : Clock) (refusals : Nat) :
    Session :=
  ⟨config, .create config rows ids, clock, refusals, .create config.timing, none⟩

/-- The rows of a session. -/
def rows (session : Session) : Rows := session.names.rows

/-- The session with other rows. -/
def withRows (session : Session) (rows : Rows) : Session :=
  { session with names := { session.names with rows } }

/-- Where a session keeps its durable mark. -/
def marks (session : Session) : MarkStore := ⟨session.rows, session.refusals⟩

/-- The session after its mark store was used. -/
def withMarks (session : Session) (store : MarkStore) : Session :=
  { session.withRows store.rows with refusals := store.refusals }

/-- Run an operation on the registry. -/
def onNames {α : Type} (session : Session) (operation : Names → α × Names) : α × Session :=
  match operation session.names with
  | (answer, names) => (answer, { session with names })

/-- Start the generator, unless the system refuses it a thread. -/
def startIds (session : Session) (refusal : Option String) : Except Error Unit × Session :=
  match session.generator.start session.rows session.clock refusal with
  | (answer, generator, clock) => (answer, { session with generator, clock })

/-- The next transaction id. -/
def nextId (session : Session) : Except Error UInt64 × Session :=
  match session.generator.next session.clock with
  | (answer, generator, clock) => (answer, { session with generator, clock })

/-- Stop the generator. -/
def stopIds (session : Session) : Except Error Unit × Session :=
  match session.generator.stop session.marks with
  | (answer, generator, store) => (answer, { session.withMarks store with generator })

/-- Give the generator up for a new one that is stopped. -/
def replaceIds (session : Session) : Session :=
  { session.withMarks (session.generator.discard session.marks) with
    generator := .create session.config.timing }

/-- Let the given time pass, in milliseconds, so that the flusher of the generator ticks. -/
def settle (session : Session) (duration : Nat) : Session :=
  match session.generator.settle session.marks duration with
  | (generator, store) => { session.withMarks store with generator }

/-- Leave the catalog, if it is open. -/
def leaveCatalog (session : Session) : Session :=
  match session.versions with
  | none => session
  | some versions => { session.withMarks (versions.discard session.marks) with versions := none }

/-- Run an operation on a catalog with the given generator of versions. -/
def onVersions {α : Type} (session : Session) (versions : TransactionIds)
    (operation : Catalog → α × Catalog) : α × Session :=
  match operation ⟨session.names, versions, session.clock, session.refusals⟩ with
  | (answer, catalog) =>
    (answer,
      { session with
        names := catalog.names
        clock := catalog.clock
        refusals := catalog.refusals
        versions := some catalog.versions })

/-- Run an operation on the catalog, if it is open. -/
def onCatalog? {α : Type} (session : Session) (operation : Catalog → α × Catalog) :
    Option (α × Session) :=
  session.versions.map fun versions => session.onVersions versions operation

/-- Open the catalog with a new generator, in place of the catalog that is open. The system may
refuse the new generator its thread. -/
def openCatalog (session : Session) (refusal : Option String) : Except Error Unit × Session :=
  match session.leaveCatalog.onVersions (.create session.config.timing) (·.start refusal) with
  | (.ok (), session) => (.ok (), session)
  | (.error fault, session) => (.error fault, { session with versions := none })

/-- Leave everything: what remains is the rows and the refusals of the medium. -/
def leave (session : Session) : MarkStore :=
  let session := session.leaveCatalog
  session.generator.discard session.marks

/-- Leave everything and open the store again. Without a source of ids the new session counts
on from the highest id in use. -/
def reopen (session : Session) (ids : Option IdSource) : Except Error Session :=
  let store := session.leave
  let restart (source : IdSource) : Session :=
    create session.config store.rows source session.clock store.refusals
  match ids with
  | some source => .ok (restart source)
  | none => (Names.highestId? store.rows).map fun highest => restart (.resumeAfter highest)

end Session

end EntityCatalog
