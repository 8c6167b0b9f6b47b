import EntityCatalog.Proofs.Names.Ledger

/-!
# The cache does not show

A run of requests gets the same answers from the registry as from the ledger, which reads the
rows every time, draws the same ids and leaves the same rows. The induction carries that every
cached binding is the stored one; each request that changes a name row first drops the names it
is about.
-/

namespace EntityCatalog

namespace Names

/-- A request to the registry, or a write of others to rows that are not its own. -/
inductive Request where
  | resolve (name : String)
  | find (name : String)
  | rename (old new : String)
  | renameWith (old new : String) (replaced : Option UInt64) (along : List Change)
  | unbind (name : String)
  | storedName (id : UInt64)
  | highestId
  | entries
  | write (changes : List Change)
deriving DecidableEq, Repr

/-- What a request is answered with. -/
inductive Answer where
  | id (outcome : Except Error UInt64)
  | binding (outcome : Except Error (Option UInt64))
  | moved (outcome : Except Error Bool)
  | unbound (found : Bool)
  | name (outcome : Except Error (Option String))
  | highest (outcome : Except Error (Option UInt64))
  | entries (outcome : Except Error (List (String × UInt64)))
  | applied (done : Bool)

/-- Whether the changes that come with a request touch no name row. -/
def Request.SparesNames : Request → Prop
  | renameWith _ _ _ along => EntityCatalog.SparesNames along
  | write changes => EntityCatalog.SparesNames changes
  | _ => True

/-- Serve one request. -/
def serve (names : Names) : Request → Answer × Names
  | .resolve name => (names.resolve name).map .id id
  | .find name => (names.find? name).map .binding id
  | .rename old new => (names.rename old new).map .moved id
  | .renameWith old new replaced along => (names.renameWith old new replaced along).map .moved id
  | .unbind name => (names.unbind name).map .unbound id
  | .storedName id => (.name (storedName? names.rows id), names)
  | .highestId => (.highest (highestId? names.rows), names)
  | .entries => (.entries (Names.entries names.rows), names)
  | .write changes =>
    (.applied (names.rows.batch changes).1, { names with rows := (names.rows.batch changes).2 })

/-- Serve requests in turn: the answers, and the registry after them. -/
def run : List Request → Names → List Answer × Names
  | [], names => ([], names)
  | request :: rest, names =>
    ((names.serve request).1 :: (run rest (names.serve request).2).1,
      (run rest (names.serve request).2).2)

end Names

namespace Ledger

/-- Serve one request. -/
def serve (ledger : Ledger) : Names.Request → Names.Answer × Ledger
  | .resolve name => (ledger.resolve name).map .id id
  | .find name => (ledger.find? name).map .binding id
  | .rename old new => (ledger.renameWith old new none []).map .moved id
  | .renameWith old new replaced along => (ledger.renameWith old new replaced along).map .moved id
  | .unbind name => (ledger.unbind name).map .unbound id
  | .storedName id => (.name (Names.storedName? ledger.rows id), ledger)
  | .highestId => (.highest (Names.highestId? ledger.rows), ledger)
  | .entries => (.entries (Names.entries ledger.rows), ledger)
  | .write changes =>
    (.applied (ledger.rows.batch changes).1, { ledger with rows := (ledger.rows.batch changes).2 })

/-- Serve requests in turn: the answers, and the ledger after them. -/
def run : List Names.Request → Ledger → List Names.Answer × Ledger
  | [], ledger => ([], ledger)
  | request :: rest, ledger =>
    ((ledger.serve request).1 :: (run rest (ledger.serve request).2).1,
      (run rest (ledger.serve request).2).2)

end Ledger

namespace Names

/-- Wrapping an answer up does not make the cache show. -/
theorem Transparent.map {α β : Type} {result : α × Names} {plain : α × Ledger} (f : α → β)
    (h : Transparent result plain) : Transparent (result.map f id) (plain.map f id) :=
  ⟨congrArg f h.answer, h.ledger, h.faithful⟩

/-- One request is served as the ledger serves it. -/
theorem serve_transparent {names : Names} (h : names.Faithful) {request : Request}
    (hspare : request.SparesNames) : Transparent (names.serve request) (names.ledger.serve request) := by
  cases request with
  | resolve name => exact (resolve_transparent h name).map _
  | find name => exact (find?_transparent h name).map _
  | rename old new => exact (renameWith_transparent h old new none (by simp [SparesNames])).map _
  | renameWith old new replaced along => exact (renameWith_transparent h old new replaced hspare).map _
  | unbind name => exact (unbind_transparent h name).map _
  | storedName id => exact ⟨rfl, rfl, h⟩
  | highestId => exact ⟨rfl, rfl, h⟩
  | entries => exact ⟨rfl, rfl, h⟩
  | write changes =>
    refine ⟨rfl, rfl, h.mono (Cache.Within.refl _) fun name _ _ => ?_⟩
    exact Rows.get?_batch_of_not_touches names.rows fun change hchange => hspare change hchange name

/-- A run is served as the ledger serves it. -/
theorem run_transparent {names : Names} (h : names.Faithful) {requests : List Request}
    (hspare : ∀ request ∈ requests, request.SparesNames) :
    Transparent (run requests names) (Ledger.run requests names.ledger) := by
  induction requests generalizing names with
  | nil => exact ⟨rfl, rfl, h⟩
  | cons request rest ih =>
    have hstep := serve_transparent h (hspare request List.mem_cons_self)
    have hrest := ih hstep.faithful fun other hother => hspare other (List.mem_cons_of_mem _ hother)
    rw [hstep.ledger] at hrest
    refine ⟨?_, hrest.ledger, hrest.faithful⟩
    simp only [run, Ledger.run, hstep.answer, hrest.answer]

/-- From no rows on, with a cache of any capacity and idle time, a registry answers as one that
always reads the rows, draws the same ids and leaves the same rows, and each binding in its cache
is the one in the name row. -/
theorem run_eq_run_ledger (capacity : Nat) (idle : Idle) (ids : IdSource) (requests : List Request)
    (hspare : ∀ request ∈ requests, request.SparesNames) :
    let cached := run requests ⟨.empty, .create capacity idle, ids⟩
    let plain := Ledger.run requests ⟨.empty, ids⟩
    cached.1 = plain.1 ∧ cached.2.ids = plain.2.ids ∧ cached.2.rows = plain.2.rows ∧
      ∀ name id, cached.2.cache.cached? name = some id →
        cached.2.rows.get? (Layout.nameKey name) = some (wordBytes id) := by
  intro cached plain
  have hrun := run_transparent (Faithful.create .empty capacity idle ids) hspare
  refine ⟨hrun.answer, ?_, ?_, ?_⟩
  · exact congrArg Ledger.ids hrun.ledger
  · exact congrArg Ledger.rows hrun.ledger
  · intro name id hcached
    exact (storedId?_eq_some_iff _ _ _).mp (hrun.faithful name id hcached)

/-- Three names in a cache with room for one, one of them renamed together with another write. -/
theorem run_eq_run_ledger_small_cache :
    let requests : List Request :=
      [.resolve "a", .resolve "b", .find "a",
        .renameWith "a" "c" none [.put [0x6d, 0x6c, 0x2f] [0x01], .eraseStem [0x63, 0x61, 0x2f]],
        .find "a", .resolve "a", .unbind "b", .entries]
    (∀ request ∈ requests, request.SparesNames) ∧
      (run requests ⟨.empty, .create 1 .endless, .countingFrom 5⟩).1 =
        (Ledger.run requests ⟨.empty, .countingFrom 5⟩).1 := by
  intro requests
  have hspare : ∀ request ∈ requests, request.SparesNames := by
    intro request hrequest
    simp only [requests, List.mem_cons, List.not_mem_nil, or_false] at hrequest
    rcases hrequest with rfl | rfl | rfl | rfl | rfl | rfl | rfl | rfl <;> try exact trivial
    intro change hchange name
    simp only [List.mem_cons, List.not_mem_nil, or_false] at hchange
    rcases hchange with rfl | rfl <;> simp [Change.Touches, Layout.nameKey, Layout.nameStem]
  exact ⟨hspare, (run_eq_run_ledger 1 .endless (.countingFrom 5) requests hspare).1⟩

end Names

end EntityCatalog
