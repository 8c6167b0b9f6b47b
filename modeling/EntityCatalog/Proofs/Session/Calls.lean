import EntityCatalog.Proofs.Catalog.BookRules
import EntityCatalog.Proofs.Catalog.Listing
import EntityCatalog.Proofs.Session.Reachable

/-!
# Everything that is called on a session

Besides its actions, a session answers looks: it finds keys and scoped names and lists entities. A
look writes no row but may fill the cache. What the mark, the resolving of keys and the operations of
a catalog uphold holds of the rows of a session after any calls, so each property of rows needs
these three facts alone.
-/

namespace EntityCatalog

namespace Session

/-- What may be called on a session: an action, or a look at the registry or the catalog. -/
inductive Call where
  | act (action : Action)
  | findKey (address : Address)
  | findName (address : Address)
  | list (levels : List String) (kind : Kind) (limit : Option Nat)

/-- The session after a call. -/
def call : Call → Session → Session
  | .act action, session => act action session
  | .findKey address, session => (session.onNames address.findKey).2
  | .findName address, session => (session.onNames address.findName).2
  | .list levels kind limit, session => session.onOpenCatalog (·.list levels kind limit)

/-- The session after a list of calls in turn. -/
def callAll : List Call → Session → Session
  | [], session => session
  | next :: rest, session => callAll rest (call next session)

/-- One more call is made on the session after the others. -/
theorem callAll_concat (calls : List Call) (next : Call) (session : Session) :
    callAll (calls ++ [next]) session = call next (callAll calls session) := by
  induction calls generalizing session with
  | nil => rfl
  | cons first rest ih => exact ih (call first session)

/-- A session stays sound when its registry is read. -/
theorem Sound.onNames_read {session : Session} (h : session.Sound) {α : Type}
    {operation : Names → α × Names} (hread : session.names.Read (operation session.names).2) :
    (session.onNames operation).2.Sound := by
  refine ⟨?_, hread.faithful⟩
  have hrows : (session.onNames operation).2.rows = session.rows := hread.rows
  rw [hrows]
  exact h.kept

/-- Every call keeps a session sound. -/
theorem Sound.call {session : Session} (h : session.Sound) (next : Call) :
    (Session.call next session).Sound := by
  cases next with
  | act action => exact h.act action
  | findKey address => exact h.onNames_read (Address.findKey_read h.faithful h.kept.consistent address)
  | findName address =>
    exact h.onNames_read (Address.findName_read h.faithful h.kept.consistent address)
  | list levels kind limit =>
    exact h.onOpenCatalog fun _ hcatalog =>
      (Catalog.list_looked hcatalog levels kind limit).sound hcatalog

/-- Every run of calls keeps a session sound. -/
theorem Sound.callAll {session : Session} (h : session.Sound) (calls : List Call) :
    (Session.callAll calls session).Sound := by
  induction calls generalizing session with
  | nil => exact h
  | cons next rest ih => exact ih (h.call next)

/-! ## Properties of rows -/

/-- A property of rows that everything that writes rows in a session upholds. -/
structure Upheld (property : Rows → Prop) : Prop where
  remarked : ∀ {rows rows' : Rows}, Remarked rows rows' → property rows → property rows'
  resolveKey : ∀ {names : Names}, names.Faithful → Names.Consistent names.rows → ∀ address : Address,
    property names.rows → property (address.resolveKey names).2.rows
  perform : ∀ {catalog : Catalog}, catalog.Sound → ∀ operation : Operation,
    property catalog.rows → property (operation.perform catalog).2.rows

namespace Upheld

variable {property : Rows → Prop} {session : Session}

/-- An operation of the catalog upholds what it upholds for catalogs. -/
theorem onOpenCatalog (hsound : session.Sound) (hrows : property session.rows) {α : Type}
    {operation : Catalog → α × Catalog}
    (hoperation : ∀ catalog : Catalog, catalog.Sound → property catalog.rows →
      property (operation catalog).2.rows) : property (session.onOpenCatalog operation).rows := by
  rw [Session.onOpenCatalog, onCatalog?]
  cases session.versions with
  | none => exact hrows
  | some versions => exact hoperation _ ⟨hsound.kept, hsound.faithful⟩ hrows

/-- Leaving the catalog upholds the property. -/
theorem leaveCatalog (h : Upheld property) (hrows : property session.rows) :
    property session.leaveCatalog.rows := by
  rw [Session.leaveCatalog]
  split
  · exact hrows
  · rename_i versions _
    exact h.remarked (TransactionIds.stop_remarked versions session.marks) hrows

/-- The rows that are left of a session have the property. -/
theorem leave (h : Upheld property) (hrows : property session.rows) : property session.leave.rows :=
  h.remarked
    (TransactionIds.stop_remarked session.leaveCatalog.generator session.leaveCatalog.marks)
    (h.leaveCatalog hrows)

/-- Reopening a session upholds the property. -/
theorem reopen (h : Upheld property) (hrows : property session.rows) {ids : Option IdSource}
    {after : Session} (hreopen : session.reopen ids = .ok after) : property after.rows := by
  obtain ⟨source, rfl⟩ := eq_create_of_reopen hreopen
  exact h.leave hrows

/-- Opening the catalog upholds the property. -/
theorem openCatalog (h : Upheld property) (hrows : property session.rows)
    (refusal : Option String) : property (session.openCatalog refusal).2.rows := by
  rw [Session.rows, names_openCatalog]
  exact h.leaveCatalog hrows

/-- Every action upholds the property. -/
theorem act (h : Upheld property) (hsound : session.Sound) (hrows : property session.rows)
    (action : Action) : property (Session.act action session).rows := by
  cases action with
  | encode address => exact h.resolveKey hsound.faithful hsound.kept.consistent address hrows
  | expire name => exact hrows
  | openCatalog refusal => exact h.openCatalog hrows refusal
  | leaveCatalog => exact h.leaveCatalog hrows
  | closeCatalog =>
    exact onOpenCatalog hsound hrows fun catalog _ =>
      h.remarked (TransactionIds.stop_remarked catalog.versions catalog.marks)
  | operate operation =>
    exact onOpenCatalog hsound hrows fun _ hcatalog => h.perform hcatalog operation
  | settleCatalog duration =>
    rw [Session.act, Session.settleCatalog]
    split
    · exact hrows
    · rename_i versions _
      exact h.remarked (TransactionIds.settle_remarked versions session.marks duration) hrows
  | startIds refusal => exact hrows
  | nextId => exact hrows
  | stopIds => exact h.remarked (TransactionIds.stop_remarked session.generator session.marks) hrows
  | replaceIds =>
    exact h.remarked (TransactionIds.stop_remarked session.generator session.marks) hrows
  | settle duration =>
    exact h.remarked (TransactionIds.settle_remarked session.generator session.marks duration) hrows
  | setClock clock => exact hrows
  | refuse writes => exact hrows
  | reopen ids =>
    rw [Session.act]
    split
    · rename_i after hreopen
      exact h.reopen hrows hreopen
    · exact hrows

/-- Every call upholds the property. -/
theorem call (h : Upheld property) (hsound : session.Sound) (hrows : property session.rows)
    (next : Call) : property (Session.call next session).rows := by
  cases next with
  | act action => exact h.act hsound hrows action
  | findKey address =>
    have hsame : (Session.call (.findKey address) session).rows = session.rows :=
      (Address.findKey_read hsound.faithful hsound.kept.consistent address).rows
    rwa [hsame]
  | findName address =>
    have hsame : (Session.call (.findName address) session).rows = session.rows :=
      (Address.findName_read hsound.faithful hsound.kept.consistent address).rows
    rwa [hsame]
  | list levels kind limit =>
    refine onOpenCatalog hsound hrows fun catalog hcatalog hproperty => ?_
    rw [(Catalog.list_looked hcatalog levels kind limit).rows]
    exact hproperty

/-- What every way of writing rows upholds holds after any calls. -/
theorem callAll (h : Upheld property) (hsound : session.Sound) (hrows : property session.rows)
    (calls : List Call) : property (Session.callAll calls session).rows := by
  induction calls generalizing session with
  | nil => exact hrows
  | cons next rest ih => exact ih (hsound.call next) (h.call hsound hrows next)

/-- A session upholds every rule of the books, for the mark is in none of them. -/
theorem of_bookRule (h : BookRule property) : Upheld property where
  remarked hmark hrows := by
    rcases hmark with rfl | ⟨mark, rfl⟩
    · exact hrows
    · refine h.sameBooks (fun key hbook => Rows.get?_insert_of_ne _ _ ?_) hrows
      rintro rfl
      exact Layout.not_isBook_markKey hbook
  resolveKey hfaithful hrows address hproperty := h.resolveKey hfaithful hrows address hproperty
  perform hsound operation hproperty := h.perform hsound operation hproperty

/-- The id rows hold concrete names within scopes, for nothing else is written into them. -/
theorem scoped_rows : Upheld Scoped := .of_bookRule Scoped.bookRule

/-- The rows stay rooted. -/
theorem rooted_rows : Upheld Rooted := .of_bookRule Rooted.bookRule

end Upheld

end Session

end EntityCatalog
