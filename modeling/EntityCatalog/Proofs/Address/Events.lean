import EntityCatalog.Catalog.Open
import EntityCatalog.Proofs.Address.Lookup
import EntityCatalog.Proofs.Names.Books

/-!
# The life of a registry

A registry that starts without rows serves requests, gives addresses their keys, and is opened anew
with another cache and another source of ids. Cached bindings expire at any time. Whatever happens
to it, its books stay in order and its cache faithful. So the name rows and the id rows agree: no two
names share an id, and each name is found under its id and listed once.
-/

namespace EntityCatalog

namespace Names

/-- What may happen to a registry. The changes that come with a request leave the books alone, and a
cached binding expires at any time, whatever the idle time of the cache. Reading a key is not among the
events, for it changes nothing. -/
inductive Event where
  | serve (request : Request) (spares : request.SparesBooks)
  | expire (name : String)
  | resolveKey (address : Address)
  | findKey (address : Address)
  | findName (address : Address)
  | reopen (config : Config) (ids : IdSource)

/-- The registry after an event. -/
def happen : Event → Names → Names
  | .serve request _, names => (names.serve request).2
  | .expire name, names => names.forget name
  | .resolveKey address, names => (address.resolveKey names).2
  | .findKey address, names => (address.findKey names).2
  | .findName address, names => (address.findName names).2
  | .reopen config ids, names => .create config names.rows ids

/-- The registry after a list of events in turn. -/
def happenAll : List Event → Names → Names
  | [], names => names
  | event :: rest, names => happenAll rest (happen event names)

/-- A registry whose books are in order and whose cache is faithful. -/
structure Orderly (names : Names) : Prop where
  books : InOrder names.rows
  faithful : names.Faithful

namespace Orderly

variable {names : Names}

/-- A registry over rows whose books are in order starts out orderly. -/
theorem create (config : Config) {rows : Rows} (h : InOrder rows) (ids : IdSource) :
    (Names.create config rows ids).Orderly :=
  ⟨h, .create rows _ _ ids⟩

/-- The books of an orderly registry are consistent. -/
theorem consistent (h : names.Orderly) : Consistent names.rows := h.books.consistent

/-- Reading keeps a registry orderly. -/
theorem read (h : names.Orderly) {names' : Names} (hread : names.Read names') : names'.Orderly :=
  ⟨hread.rows ▸ h.books, hread.faithful⟩

/-- Every event keeps a registry orderly. -/
theorem happen (h : names.Orderly) (event : Event) : (Names.happen event names).Orderly := by
  cases event with
  | serve request hspare =>
    exact ⟨h.books.posted (serve_posted h.faithful h.consistent hspare),
      (serve_transparent h.faithful hspare.sparesNames).faithful⟩
  | expire name => exact ⟨h.books, h.faithful.forget name⟩
  | resolveKey address =>
    obtain ⟨hgrows, hfaithful, -⟩ := Address.resolveKey_grows h.faithful h.consistent address
    exact ⟨h.books.grows hgrows, hfaithful⟩
  | findKey address => exact h.read (Address.findKey_read h.faithful h.consistent address)
  | findName address => exact h.read (Address.findName_read h.faithful h.consistent address)
  | reopen config ids => exact .create config h.books ids

/-- Every run of events keeps a registry orderly. -/
theorem happenAll (h : names.Orderly) (events : List Event) :
    (Names.happenAll events names).Orderly := by
  induction events generalizing names with
  | nil => exact h
  | cons event rest ih => exact ih (h.happen event)

/-- A name that is bound is found, and it is the name that the id row of its id holds. -/
theorem storedName?_find? (h : names.Orderly) {name : String}
    (hname : names.rows.contains (Layout.nameKey name) = true) :
    ∃ id, (names.find? name).1 = .ok (some id) ∧
      storedName? (names.find? name).2.rows id = .ok (some name) := by
  obtain ⟨bytes, hbytes⟩ := Option.isSome_iff_exists.mp hname
  obtain ⟨id, rfl⟩ := h.consistent.legible name bytes hbytes
  have hid : boundId? names.rows name = some id := (boundId?_eq_some_iff _ _ _).mpr hbytes
  refine ⟨id, ?_, ?_⟩
  · rw [find?_eq h.faithful h.consistent, hid]
  · rw [(find?_read h.faithful name).rows]
    exact h.consistent.storedName?_eq hid

end Orderly

/-- After any events since there were no rows, the id row of a bound id holds the name that the id
is bound to. Hence no two names share an id, each bound name is found under its id, and the entries
are the bound names, each once, in their byte order. -/
theorem books_agree (config : Config) (ids : IdSource) (events : List Event) :
    let names := happenAll events (.create config .empty ids)
    (∀ name id, names.rows.get? (Layout.nameKey name) = some (wordBytes id) →
      names.rows.get? (Layout.idKey id) = some (Text.utf8 name)) ∧
    (∀ name name' id, names.rows.get? (Layout.nameKey name) = some (wordBytes id) →
      names.rows.get? (Layout.nameKey name') = some (wordBytes id) → name = name') ∧
    (∀ name, names.rows.contains (Layout.nameKey name) = true →
      ∃ id, (names.find? name).1 = .ok (some id) ∧
        storedName? (names.find? name).2.rows id = .ok (some name)) ∧
    ∃ list, entries names.rows = .ok list ∧
      (∀ name id, (name, id) ∈ list ↔
        names.rows.get? (Layout.nameKey name) = some (wordBytes id)) ∧
      list.Pairwise fun a b => Text.utf8 a.1 < Text.utf8 b.1 := by
  intro names
  have h : names.Orderly := (Orderly.create config .empty ids).happenAll events
  refine ⟨fun name id hid => ?_, fun name name' id hid hid' => ?_, fun name hname => ?_,
    h.books.entries_eq_ok⟩
  · exact h.consistent.paired name id ((boundId?_eq_some_iff _ _ _).mpr hid)
  · exact h.consistent.name_unique ((boundId?_eq_some_iff _ _ _).mpr hid)
      ((boundId?_eq_some_iff _ _ _).mpr hid')
  · exact h.storedName?_find? hname

/-- A binding that was replaced leaves its id row behind, with a name that has another id now. -/
example :
    let names := happenAll [.serve (.resolve "a") trivial, .serve (.resolve "b") trivial,
        .serve (.renameWith "a" "b" (some 1) []) (by simp [Request.SparesBooks, SparesBooks])]
      (.create {} .empty (.countingFrom 0))
    entries names.rows = .ok [("b", 0)] ∧ storedName? names.rows 1 = .ok (some "b") := ⟨rfl, rfl⟩

end Names

end EntityCatalog
