import EntityCatalog.Proofs.Address.Events
import EntityCatalog.Proofs.Session.Calls

/-!
# Keys read back, and what reads back has its key

The bytes of a key that an address was given, or was found to have, read as that address, whatever
has happened to the registry and whatever characters its names hold. The other way round, bytes that
read as an address are those of its key, as long as the ids in them are bound and the id rows were
written by a session alone.

A registry on its own gives no such promise for the second direction: it may bind an id to a name
that no path can hold, such as the empty one within a scope, and the bytes of that id then read as
an address that has no key.
-/

namespace EntityCatalog

namespace Session

/-- Reading undoes what gave an address its key, and finding the key of an address undoes what read
it from bytes with bound ids. -/
theorem read_inverse_findKey (config : Config) (ids : IdSource) :
    (∀ (events : List Names.Event) (address : Address) (key : Key),
      let names := Names.happenAll events (.create config .empty ids)
      ((address.resolveKey names).1 = .ok key →
        Address.read (address.resolveKey names).2.rows key.encode = .ok address) ∧
      ((address.findKey names).1 = .ok (some key) →
        Address.read (address.findKey names).2.rows key.encode = .ok address)) ∧
    ∀ (clock : Clock) (refusals : Nat) (calls : List Call) (bytes : Bytes) (address : Address)
      (key : Key),
      let session := callAll calls (create config .empty ids clock refusals)
      Address.read session.rows bytes = .ok address → Key.decode bytes = .ok key →
      (∀ id ∈ key.ids, Address.IsBound session.rows id) →
      (address.findKey session.names).1 = .ok (some key) ∧ key.encode = bytes := by
  constructor
  · intro events address key names
    have h : names.Orderly := (Names.Orderly.create config .empty ids).happenAll events
    constructor
    · intro hanswer
      obtain ⟨hgrows, -, hstored⟩ := Address.resolveKey_grows h.faithful h.consistent address
      exact Address.read_of_storedKey? (hgrows.consistent h.consistent) (hstored key hanswer)
    · intro hanswer
      rw [(Address.findKey_read h.faithful h.consistent address).rows]
      exact Address.read_of_storedKey? h.consistent
        ((Address.findKey_eq_ok_some_iff h.faithful h.consistent address key).mp hanswer)
  · intro clock refusals calls bytes address key session hread hdecode hbound
    have hfirst := Sound.create config .empty ids clock refusals
    have hsound : session.Sound := hfirst.callAll calls
    have hscoped : Scoped session.rows := Upheld.scoped_rows.callAll hfirst .empty calls
    have hstored := Address.storedKey?_of_read hscoped hread hdecode hbound
    exact ⟨(Address.findKey_eq_ok_some_iff hsound.faithful hsound.kept.consistent address key).mpr
      hstored, ((Key.decode_eq_ok_iff bytes key).mp hdecode).1.symm⟩

/-- A catalog whose names look like names within scopes. -/
def oddAddress : Address := ⟨⟨["0/ca:a"], "47/sc:b.*"⟩, .catalog⟩

/-- Its key, in which an id looks like a separator. -/
def oddKey : Key := ⟨.catalog, [47, 48], false⟩

/-- Names that hold every delimiter, and an id whose last byte is the separator. -/
theorem read_inverse_findKey_odd :
    (oddAddress.resolveKey (.create {} .empty (.countingFrom 47))).1 = .ok oddKey ∧
      Address.read (oddAddress.resolveKey (.create {} .empty (.countingFrom 47))).2.rows
        oddKey.encode = .ok oddAddress ∧
      let session := callAll [.act (.encode oddAddress)]
        (create {} .empty (.countingFrom 47) (.constant 0) 0)
      Address.read session.rows oddKey.encode = .ok oddAddress ∧
        (∀ id ∈ oddKey.ids, Address.IsBound session.rows id) ∧
        (oddAddress.findKey session.names).1 = .ok (some oddKey) := by
  obtain ⟨hforth, hback⟩ := read_inverse_findKey {} (.countingFrom 47)
  have hread := (hforth [] oddAddress oddKey).1 rfl
  have hbound : ∀ id ∈ oddKey.ids, Address.IsBound
      (oddAddress.resolveKey (.create {} .empty (.countingFrom 47))).2.rows id := by
    intro id hid
    simp only [oddKey, List.mem_cons, List.not_mem_nil, or_false] at hid
    rcases hid with rfl | rfl
    · exact ⟨"ml:0/ca:a", rfl, rfl⟩
    · exact ⟨"47/ca:47/sc:b.*", rfl, rfl⟩
  exact ⟨rfl, hread, hread, hbound, (hback (.constant 0) 0 [.act (.encode oddAddress)]
    oddKey.encode oddAddress oddKey hread rfl hbound).1⟩

end Session

end EntityCatalog
