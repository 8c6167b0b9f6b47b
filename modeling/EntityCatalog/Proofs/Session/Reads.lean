import EntityCatalog.Proofs.Catalog.Twins
import EntityCatalog.Proofs.Session.Calls

/-!
# Reads are invisible

A read may fill the cache, reorder it and push other bindings out of it, so two sessions of which only
one is read have different caches from then on. They stay twins all the same: their caches are faithful,
and nothing else of a session tells them apart. Twins answer alike, draw the same ids and versions, and
write the same rows. So it cannot be told from anything else that is done with a session whether, where
and how often it was read, and neither can it be told when a cached binding expired.
-/

namespace EntityCatalog

namespace Catalog.Twins

variable {catalog catalog' : Catalog}

/-- Twins start alike. -/
theorem start (h : catalog.Twins catalog') (refusal : Option String) :
    Alike Twins (catalog.start refusal) (catalog'.start refusal) := by
  rw [Catalog.start, Catalog.start, ← h.versions, ← h.clock, ← h.rows]
  exact ⟨rfl, h.names, rfl, rfl, h.refusals⟩

/-- Twins close alike. -/
theorem close (h : catalog.Twins catalog') : Alike Twins catalog.close catalog'.close := by
  have hmarks : catalog.marks = catalog'.marks := by
    rw [Catalog.marks, Catalog.marks, h.rows, h.refusals]
  have hstop := TransactionIds.stop_remarked catalog.versions catalog.marks
  rw [Catalog.close, Catalog.close, ← h.versions, ← hmarks]
  exact ⟨rfl, h.names.withRows hstop.get?_nameKey, rfl, h.clock, rfl⟩

end Catalog.Twins

namespace Session

/-- All of a session but the cache of its registry. -/
structure Face where
  config : Config
  ledger : Ledger
  clock : Clock
  refusals : Nat
  generator : TransactionIds
  versions : Option TransactionIds

/-- What a session shows but for its cache. -/
def face (session : Session) : Face :=
  ⟨session.config, session.names.ledger, session.clock, session.refusals, session.generator,
    session.versions⟩

/-- Two sessions that differ in nothing but the caches of their registries, both of which are
faithful. -/
structure Twins (session session' : Session) : Prop where
  config : session.config = session'.config
  names : session.names.Twins session'.names
  clock : session.clock = session'.clock
  refusals : session.refusals = session'.refusals
  generator : session.generator = session'.generator
  versions : session.versions = session'.versions

namespace Twins

variable {session session' session'' : Session}

/-- A session with a faithful cache is a twin of itself. -/
theorem refl (h : session.names.Faithful) : Twins session session :=
  ⟨rfl, .refl h, rfl, rfl, rfl, rfl⟩

/-- Twins are twins either way. -/
theorem symm (h : Twins session session') : Twins session' session :=
  ⟨h.config.symm, h.names.symm, h.clock.symm, h.refusals.symm, h.generator.symm, h.versions.symm⟩

/-- A twin of a twin is a twin. -/
theorem trans (h : Twins session session') (h' : Twins session' session'') :
    Twins session session'' :=
  ⟨h.config.trans h'.config, h.names.trans h'.names, h.clock.trans h'.clock,
    h.refusals.trans h'.refusals, h.generator.trans h'.generator, h.versions.trans h'.versions⟩

/-- Twins show the same but for their caches. -/
theorem face_eq (h : Twins session session') : session.face = session'.face := by
  rw [face, face, h.config, h.names.ledger, h.clock, h.refusals, h.generator, h.versions]

/-- Twins have the same rows. -/
theorem rows (h : Twins session session') : session.rows = session'.rows := h.names.rows

/-- Twins keep their marks in the same store. -/
theorem marks (h : Twins session session') : session.marks = session'.marks := by
  rw [Session.marks, Session.marks, h.rows, h.refusals]

/-- An operation that treats twin registries alike treats twin sessions alike. -/
theorem onNames (h : Twins session session') {α : Type} {operation : Names → α × Names}
    (hoperation : Alike Names.Twins (operation session.names) (operation session'.names)) :
    Alike Twins (session.onNames operation) (session'.onNames operation) :=
  ⟨hoperation.answer, h.config, hoperation.after, h.clock, h.refusals, h.generator, h.versions⟩

/-- Twins stay twins when the same generator has used the mark store of each. -/
theorem withMarks (h : Twins session session') {store : MarkStore}
    (hstore : Remarked session.rows store.rows) :
    Twins (session.withMarks store) (session'.withMarks store) :=
  ⟨h.config, h.names.withRows hstore.get?_nameKey, h.clock, rfl, h.generator, h.versions⟩

/-! ## The catalog -/

/-- The catalogs of twins are twins. -/
theorem catalog (h : Twins session session') (versions : TransactionIds) :
    Catalog.Twins ⟨session.names, versions, session.clock, session.refusals⟩
      ⟨session'.names, versions, session'.clock, session'.refusals⟩ :=
  ⟨h.names, rfl, h.clock, h.refusals⟩

/-- An operation that treats twin catalogs alike treats twin sessions alike. -/
theorem onVersions (h : Twins session session') (versions : TransactionIds) {α : Type}
    {operation : Catalog → α × Catalog}
    (hoperation : ∀ catalog catalog' : Catalog, catalog.Twins catalog' →
      Alike Catalog.Twins (operation catalog) (operation catalog')) :
    Alike Twins (session.onVersions versions operation) (session'.onVersions versions operation) := by
  obtain ⟨hanswer, hafter⟩ := hoperation _ _ (h.catalog versions)
  exact ⟨hanswer, h.config, hafter.names, hafter.clock, hafter.refusals, h.generator,
    congrArg some hafter.versions⟩

/-- An operation on the catalog is answered alike by twins, also when the catalog is not open. -/
theorem onCatalog? (h : Twins session session') {α : Type} {operation : Catalog → α × Catalog}
    (hoperation : ∀ catalog catalog' : Catalog, catalog.Twins catalog' →
      Alike Catalog.Twins (operation catalog) (operation catalog')) :
    (session.onCatalog? operation).map Prod.fst = (session'.onCatalog? operation).map Prod.fst ∧
      Twins (session.onOpenCatalog operation) (session'.onOpenCatalog operation) := by
  cases hversions : session.versions with
  | none =>
    have hversions' : session'.versions = none := h.versions.symm.trans hversions
    rw [onOpenCatalog_of_none hversions, onOpenCatalog_of_none hversions', Session.onCatalog?,
      Session.onCatalog?, hversions, hversions']
    exact ⟨rfl, h⟩
  | some versions =>
    have hversions' : session'.versions = some versions := h.versions.symm.trans hversions
    obtain ⟨hanswer, hafter⟩ := h.onVersions versions hoperation
    rw [onOpenCatalog_of_some hversions, onOpenCatalog_of_some hversions', Session.onCatalog?,
      Session.onCatalog?, hversions, hversions']
    exact ⟨congrArg some hanswer, hafter⟩

/-- An operation that leaves the catalog a twin of what it was leaves the session one. -/
theorem onOpenCatalog_self (h : session.names.Faithful) {α : Type} {operation : Catalog → α × Catalog}
    (hoperation : ∀ catalog : Catalog, catalog.names.Faithful → catalog.Twins (operation catalog).2) :
    Twins session (session.onOpenCatalog operation) := by
  cases hversions : session.versions with
  | none =>
    rw [onOpenCatalog_of_none hversions]
    exact .refl h
  | some versions =>
    rw [onOpenCatalog_of_some hversions]
    have hafter := hoperation ⟨session.names, versions, session.clock, session.refusals⟩ h
    exact ⟨rfl, hafter.names, hafter.clock, hafter.refusals, rfl,
      hversions.trans (congrArg some hafter.versions)⟩

/-- Twins are left with twins when the catalog is left. -/
theorem leaveCatalog (h : Twins session session') :
    Twins session.leaveCatalog session'.leaveCatalog := by
  rw [Session.leaveCatalog, Session.leaveCatalog, ← h.versions, ← h.marks]
  split
  · exact h
  · rename_i versions _
    have hleft := h.withMarks (TransactionIds.stop_remarked versions session.marks)
    exact ⟨hleft.config, hleft.names, hleft.clock, hleft.refusals, hleft.generator, rfl⟩

/-- Twins open the catalog alike. -/
theorem openCatalog (h : Twins session session') (refusal : Option String) :
    Alike Twins (session.openCatalog refusal) (session'.openCatalog refusal) := by
  obtain ⟨answer, after, after', heq, heq', hafter⟩ :=
    (h.leaveCatalog.onVersions (.create session.config.timing) fun _ _ htwins =>
      htwins.start refusal).exists_eq
  rw [Session.openCatalog, Session.openCatalog, ← h.config, heq, heq']
  cases answer with
  | ok => exact ⟨rfl, hafter⟩
  | error fault =>
    exact ⟨rfl, hafter.config, hafter.names, hafter.clock, hafter.refusals, hafter.generator, rfl⟩

/-- Time passes alike for the catalogs of twins. -/
theorem settleCatalog (h : Twins session session') (duration : Nat) :
    Twins (session.settleCatalog duration) (session'.settleCatalog duration) := by
  rw [Session.settleCatalog, Session.settleCatalog, ← h.versions, ← h.marks]
  split
  · exact h
  · rename_i versions _
    have hsettled :=
      h.withMarks (TransactionIds.settle_remarked versions session.marks duration)
    exact ⟨hsettled.config, hsettled.names, hsettled.clock, hsettled.refusals, hsettled.generator, rfl⟩

/-! ## The generator -/

/-- Twins start their generators alike. -/
theorem startIds (h : Twins session session') (refusal : Option String) :
    Alike Twins (session.startIds refusal) (session'.startIds refusal) := by
  rw [Session.startIds, Session.startIds, ← h.generator, ← h.clock, ← h.rows]
  exact ⟨rfl, h.config, h.names, rfl, h.refusals, rfl, h.versions⟩

/-- Twins give the same id. -/
theorem nextId (h : Twins session session') : Alike Twins session.nextId session'.nextId := by
  rw [Session.nextId, Session.nextId, ← h.generator, ← h.clock]
  exact ⟨rfl, h.config, h.names, rfl, h.refusals, rfl, h.versions⟩

/-- Twins stop their generators alike. -/
theorem stopIds (h : Twins session session') : Alike Twins session.stopIds session'.stopIds := by
  have hstopped := h.withMarks (TransactionIds.stop_remarked session.generator session.marks)
  rw [Session.stopIds, Session.stopIds, ← h.generator, ← h.marks]
  exact ⟨rfl, h.config, hstopped.names, h.clock, rfl, rfl, h.versions⟩

/-- Twins replace their generators alike. -/
theorem replaceIds (h : Twins session session') : Twins session.replaceIds session'.replaceIds := by
  have hstopped := h.withMarks (TransactionIds.stop_remarked session.generator session.marks)
  rw [Session.replaceIds, Session.replaceIds, ← h.generator, ← h.marks, ← h.config]
  exact ⟨h.config, hstopped.names, h.clock, rfl, rfl, h.versions⟩

/-- Time passes alike for the generators of twins. -/
theorem settle (h : Twins session session') (duration : Nat) :
    Twins (session.settle duration) (session'.settle duration) := by
  have hsettled :=
    h.withMarks (TransactionIds.settle_remarked session.generator session.marks duration)
  rw [Session.settle, Session.settle, ← h.generator, ← h.marks]
  exact ⟨h.config, hsettled.names, h.clock, rfl, rfl, h.versions⟩

/-- Twins are reopened as one session, for nothing is left of their caches. -/
theorem reopen_eq (h : Twins session session') (ids : Option IdSource) :
    session.reopen ids = session'.reopen ids := by
  have hleft := h.leaveCatalog
  have hleave : session.leave = session'.leave := by
    rw [Session.leave, Session.leave, hleft.generator, hleft.marks]
  simp only [Session.reopen, hleave, h.config, h.clock]

end Twins

/-! ## Turns -/

/-- What is answered to a turn. An operation on the catalog has no answer when the catalog is not
open. -/
inductive Reply where
  | served (answer : Names.Answer)
  | resolvedKey (outcome : Except Error Key)
  | foundKey (outcome : Except Error (Option Key))
  | foundName (outcome : Except Error (Option String))
  | address (outcome : Except Error Address)
  | done (outcome : Except Error Unit)
  | id (outcome : Except Error UInt64)
  | closed (outcome : Option (Except Error Unit))
  | performed (operation : Operation) (outcome : Option (Except Error operation.Outcome))
  | listed (outcome : Option (Except Error (List (Path × Record))))
  | nothing

/-- What is answered to an action. -/
def Action.reply : Action → Session → Reply
  | .encode address, session => .resolvedKey (session.onNames address.resolveKey).1
  | .openCatalog refusal, session => .done (session.openCatalog refusal).1
  | .closeCatalog, session => .closed ((session.onCatalog? Catalog.close).map Prod.fst)
  | .operate operation, session =>
    .performed operation ((session.onCatalog? operation.perform).map Prod.fst)
  | .startIds refusal, session => .done (session.startIds refusal).1
  | .nextId, session => .id session.nextId.1
  | .stopIds, session => .done session.stopIds.1
  | .reopen ids, session => .done ((session.reopen ids).map fun _ => ())
  | _, _ => .nothing

/-- What is answered to a call. -/
def Call.reply : Call → Session → Reply
  | .act action, session => action.reply session
  | .findKey address, session => .foundKey (session.onNames address.findKey).1
  | .findName address, session => .foundName (session.onNames address.findName).1
  | .list levels kind limit, session =>
    .listed ((session.onCatalog? (·.list levels kind limit)).map Prod.fst)

/-- What may be done with a session: a request to its registry, a call, the reading of a key. -/
inductive Turn where
  | serve (request : Names.Request)
  | call (next : Call)
  | read (bytes : Bytes)

namespace Turn

/-- What is answered to a turn. -/
def reply : Turn → Session → Reply
  | serve request, session => .served (session.onNames (·.serve request)).1
  | call next, session => next.reply session
  | read bytes, session => .address (Address.read session.rows bytes)

/-- The session after a turn. -/
def take : Turn → Session → Session
  | serve request, session => (session.onNames (·.serve request)).2
  | call next, session => Session.call next session
  | read _, session => session

/-- Whether a turn reads, or lets a cached binding expire. -/
def isRead : Turn → Bool
  | serve request => request.isRead
  | call (.act (.operate operation)) => operation.isRead
  | call (.act (.expire _)) => true
  | call (.act _) => false
  | _ => true

/-- Whether the changes that come with a turn touch no name row. -/
def SparesNames : Turn → Prop
  | serve request => request.SparesNames
  | _ => True

end Turn

variable {session session' : Session}

namespace Twins

/-- Twins take any action alike. -/
theorem act (h : Twins session session') (action : Action) :
    action.reply session = action.reply session' ∧
      Twins (Session.act action session) (Session.act action session') := by
  cases action with
  | encode address =>
    have halike := h.onNames (address.resolveKey_alike h.names)
    exact ⟨congrArg Reply.resolvedKey halike.answer, halike.after⟩
  | expire name =>
    exact ⟨rfl, h.config, ⟨h.names.ledger, h.names.faithful.forget name, h.names.faithful'.forget name⟩,
      h.clock, h.refusals, h.generator, h.versions⟩
  | openCatalog refusal =>
    have halike := h.openCatalog refusal
    exact ⟨congrArg Reply.done halike.answer, halike.after⟩
  | leaveCatalog => exact ⟨rfl, h.leaveCatalog⟩
  | closeCatalog =>
    obtain ⟨hanswer, hafter⟩ := h.onCatalog? fun _ _ htwins => htwins.close
    exact ⟨congrArg Reply.closed hanswer, hafter⟩
  | operate operation =>
    obtain ⟨hanswer, hafter⟩ := h.onCatalog? fun _ _ htwins => operation.perform_alike htwins
    exact ⟨congrArg (Reply.performed operation) hanswer, hafter⟩
  | settleCatalog duration => exact ⟨rfl, h.settleCatalog duration⟩
  | startIds refusal =>
    have halike := h.startIds refusal
    exact ⟨congrArg Reply.done halike.answer, halike.after⟩
  | nextId => exact ⟨congrArg Reply.id h.nextId.answer, h.nextId.after⟩
  | stopIds => exact ⟨congrArg Reply.done h.stopIds.answer, h.stopIds.after⟩
  | replaceIds => exact ⟨rfl, h.replaceIds⟩
  | settle duration => exact ⟨rfl, h.settle duration⟩
  | setClock clock => exact ⟨rfl, h.config, h.names, rfl, h.refusals, h.generator, h.versions⟩
  | refuse writes => exact ⟨rfl, h.config, h.names, h.clock, rfl, h.generator, h.versions⟩
  | reopen ids =>
    rw [Action.reply, Action.reply, Session.act, Session.act, ← h.reopen_eq ids]
    refine ⟨rfl, ?_⟩
    split
    · rename_i after hreopen
      obtain ⟨source, rfl⟩ := eq_create_of_reopen hreopen
      exact .refl (.create _ _ _ _)
    · exact h

/-- Twins answer any call alike. -/
theorem call (h : Twins session session') (next : Call) :
    next.reply session = next.reply session' ∧
      Twins (Session.call next session) (Session.call next session') := by
  cases next with
  | act action => exact h.act action
  | findKey address =>
    have halike := h.onNames ((address.findKey_glimpse h.names).alike h.names)
    exact ⟨congrArg Reply.foundKey halike.answer, halike.after⟩
  | findName address =>
    have halike := h.onNames ((address.findName_glimpse h.names).alike h.names)
    exact ⟨congrArg Reply.foundName halike.answer, halike.after⟩
  | list levels kind limit =>
    obtain ⟨hanswer, hafter⟩ :=
      h.onCatalog? fun _ _ htwins => (htwins.list levels kind limit).alike htwins
    exact ⟨congrArg Reply.listed hanswer, hafter⟩

/-- Twins take any turn alike. -/
theorem take (h : Twins session session') {turn : Turn} (hspare : turn.SparesNames) :
    turn.reply session = turn.reply session' ∧ Twins (turn.take session) (turn.take session') := by
  cases turn with
  | serve request =>
    have halike : Alike Twins (session.onNames (·.serve request))
        (session'.onNames (·.serve request)) := h.onNames (h.names.serve hspare)
    exact ⟨congrArg Reply.served halike.answer, halike.after⟩
  | call next => exact h.call next
  | read bytes =>
    rw [Turn.reply, Turn.reply, h.rows]
    exact ⟨rfl, h⟩

end Twins

/-- A session is a twin of what it was before it was read. -/
theorem twins_of_isRead (h : session.names.Faithful) {turn : Turn} (hread : turn.isRead = true) :
    Twins session (turn.take session) := by
  have hnames {after : Names} (hafter : session.names.Twins after) :
      Twins session { session with names := after } := ⟨rfl, hafter, rfl, rfl, rfl, rfl⟩
  cases turn with
  | serve request => exact hnames (Names.twins_of_isRead h hread)
  | call next =>
    cases next with
    | act action =>
      cases action with
      | operate operation =>
        exact Twins.onOpenCatalog_self h fun _ hfaithful => operation.twins_of_isRead hfaithful hread
      | expire name => exact hnames ⟨rfl, h, h.forget name⟩
      | _ => exact absurd hread Bool.false_ne_true
    | findKey address => exact hnames (address.findKey_glimpse (.refl h)).kept
    | findName address => exact hnames (address.findName_glimpse (.refl h)).kept
    | list levels kind limit =>
      exact Twins.onOpenCatalog_self h fun _ hfaithful =>
        ((Catalog.Twins.refl hfaithful).list levels kind limit).kept
  | read bytes => exact .refl h

/-! ## Runs of turns -/

/-- What is seen of the turns that do not read: the answer to each, and all of the session after it but
the cache. -/
def sights : List Turn → Session → List (Reply × Face)
  | [], _ => []
  | turn :: rest, session =>
    if turn.isRead then sights rest (turn.take session)
    else (turn.reply session, (turn.take session).face) :: sights rest (turn.take session)

/-- The session after turns. -/
def takeAll : List Turn → Session → Session
  | [], session => session
  | turn :: rest, session => takeAll rest (turn.take session)

/-- Leaving out the turns that read changes nothing but the cache. -/
theorem Twins.leaveOut (h : Twins session session') {turns : List Turn}
    (hspare : ∀ turn ∈ turns.filter (!·.isRead), turn.SparesNames) :
    sights turns session = sights (turns.filter (!·.isRead)) session' ∧
      Twins (takeAll turns session) (takeAll (turns.filter (!·.isRead)) session') := by
  induction turns generalizing session session' with
  | nil => exact ⟨rfl, h⟩
  | cons turn rest ih =>
    cases hread : turn.isRead with
    | true =>
      rw [List.filter_cons_of_neg (by simp [hread])] at hspare ⊢
      rw [sights, if_pos hread]
      exact ih ((twins_of_isRead h.names.faithful hread).symm.trans h) hspare
    | false =>
      rw [List.filter_cons_of_pos (by simp [hread])] at hspare ⊢
      obtain ⟨hfirst, hrest⟩ := List.forall_mem_cons.mp hspare
      obtain ⟨hreply, hafter⟩ := h.take hfirst
      obtain ⟨hsights, hlast⟩ := ih hafter hrest
      have hnot : ¬ turn.isRead = true := by simp [hread]
      rw [sights, sights, if_neg hnot, if_neg hnot, hreply, hafter.face_eq, hsights]
      exact ⟨rfl, hlast⟩

/-- Of two runs without rows at the start that differ in nothing but the turns that read, the same is
seen: each other turn has the same answer and leaves the same rows, the same source of ids and the same
generators, and whatever is asked next, also if it reads, is answered alike. The cache may have any
capacity and idle time. -/
theorem reads_leave_no_trace (config : Config) (ids : IdSource) (clock : Clock) (refusals : Nat)
    (turns turns' : List Turn) (hspare : ∀ turn ∈ turns, turn.SparesNames)
    (hsame : turns.filter (!·.isRead) = turns'.filter (!·.isRead)) :
    let start := create config .empty ids clock refusals
    let session := takeAll turns start
    let session' := takeAll turns' start
    sights turns start = sights turns' start ∧ session.face = session'.face ∧
      ∀ next : Turn, next.SparesNames → next.reply session = next.reply session' := by
  intro start session session'
  have hstart : Twins start start := .refl (.create _ _ _ _)
  have hfiltered : ∀ turn ∈ turns.filter (!·.isRead), turn.SparesNames :=
    fun turn hturn => hspare turn (List.mem_filter.mp hturn).1
  obtain ⟨hsights, htwins⟩ := hstart.leaveOut hfiltered
  obtain ⟨hsights', htwins'⟩ := hstart.leaveOut (hsame ▸ hfiltered)
  rw [← hsame] at hsights' htwins'
  have hsession : Twins session session' := htwins.trans htwins'.symm
  exact ⟨hsights.trans hsights'.symm, hsession.face_eq, fun next hnext => (hsession.take hnext).1⟩

/-- Turns that write. -/
def writingTurns : List Turn :=
  [.serve (.resolve "a"), .serve (.resolve "b"), .serve (.rename "b" "c")]

/-- The same turns, and among them some that read and a binding that expires. -/
def interspersedTurns : List Turn :=
  [.serve (.resolve "a"), .read [], .serve (.resolve "b"), .serve (.find "a"),
    .call (.act (.expire "b")), .serve (.rename "b" "c"), .serve .entries]

/-- In a cache with room for one of two names, the look at the first pushes the second out. It is not to be
told from the rest, although the caches differ in the end. -/
theorem reads_leave_no_trace_small_cache :
    let start := create { cacheCapacity := 1 } .empty (.countingFrom 0) (.constant 1000) 0
    (∀ turn ∈ writingTurns, turn.SparesNames) ∧
      writingTurns.filter (!·.isRead) = interspersedTurns.filter (!·.isRead) ∧
      (takeAll writingTurns start).names.cache.length = 0 ∧
      (takeAll interspersedTurns start).names.cache.length = 1 ∧
      (takeAll writingTurns start).face = (takeAll interspersedTurns start).face := by
  have hspare : ∀ turn ∈ writingTurns, turn.SparesNames := by
    simp [writingTurns, Turn.SparesNames, Names.Request.SparesNames]
  exact ⟨hspare, rfl, by decide +kernel, by decide +kernel,
    (reads_leave_no_trace { cacheCapacity := 1 } (.countingFrom 0) (.constant 1000) 0 writingTurns
      interspersedTurns hspare rfl).2.1⟩

end Session

end EntityCatalog
