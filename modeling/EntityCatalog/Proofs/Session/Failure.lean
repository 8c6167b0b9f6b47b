import EntityCatalog.Proofs.Catalog.Effects
import EntityCatalog.Proofs.Session.Calls

/-!
# What failures leave

An operation that fails leaves the rows as they were, whatever they hold, and so does every look. The
exception is a put: the names on its path may have been bound before it failed, each with both of its
rows. A put does not come so far when its address is at fault. Nor does it bind a name when the entity
is there already, as long as the rows are those of a session that started without rows: an entity is
stored only under ids to which the names on its path are bound.
-/

namespace EntityCatalog

/-- What can be at fault with an address that is to stand for one entity. -/
inductive Address.Faulty (address : Address) : Prop where
  | wildcard (h : address.path.isWildcard = true)
  | kind (h : address.kind.ancestors = none)
  | depth (kinds : List Kind) (h : address.kind.ancestors = some kinds)
      (hdepth : address.path.levels.length ≠ kinds.length)
  | level (name : String) (h : name ∈ address.path.levels) (hvague : name = "" ∨ name = wildcardName)
  | leaf (h : address.path.leaf = "")

/-- The checks of a path find every fault of an address. -/
theorem Address.Faulty.checked {address : Address} (h : address.Faulty) :
    ∃ fault, address.checked = .error fault := by
  cases hchecked : address.checked with
  | error fault => exact ⟨fault, rfl⟩
  | ok =>
    have hsingle := (address.checked_eq_ok_iff).mp hchecked
    obtain ⟨hancestors, hlength, hlevels, hleaf⟩ := (levels_eq_ok_iff address _).mp hsingle.levels
    cases h with
    | wildcard h => exact absurd (h.symm.trans hsingle.concrete) (by simp)
    | kind h => exact absurd (h.symm.trans hancestors) (by simp)
    | depth kinds h hdepth =>
      obtain rfl := Option.some.inj (h.symm.trans hancestors)
      exact absurd hlength hdepth
    | level name h hvague =>
      have hconcrete := List.all_eq_true.mp hlevels name h
      rcases hvague with rfl | rfl <;> exact absurd hconcrete (by decide)
    | leaf h => exact absurd h hleaf

namespace Catalog

variable {catalog : Catalog}

/-- What looks and failures leave of the rows of a catalog. -/
structure SparesRows (catalog : Catalog) : Prop where
  get : ∀ address, (catalog.get address).2.rows = catalog.rows
  contains : ∀ address, (catalog.contains address).2.rows = catalog.rows
  list : ∀ levels kind limit, (catalog.list levels kind limit).2.rows = catalog.rows
  update : ∀ address change fault, (catalog.update address change).1 = .error fault →
    (catalog.update address change).2.rows = catalog.rows
  delete : ∀ address cascade, (catalog.delete address cascade).1 ≠ .ok true →
    (catalog.delete address cascade).2.rows = catalog.rows
  put : ∀ address payload overwrite fault, (catalog.put address payload overwrite).1 = .error fault →
    Names.AddsBindings catalog.rows (catalog.put address payload overwrite).2.rows
  putFaulty : ∀ address payload overwrite, address.Faulty →
    ∃ fault, catalog.put address payload overwrite = (.error fault, catalog)

/-- Every catalog spares its rows, sound or not. -/
theorem sparesRows (catalog : Catalog) : catalog.SparesRows where
  get address := (get_glanced catalog address).rows
  contains address := (contains_glanced catalog address).rows
  list levels kind limit := (list_glanced catalog levels kind limit).rows
  update address change fault hfault := by
    rcases update_cases catalog address change with ⟨key, record, hok, -⟩ | ⟨-, hrows, -⟩
    · exact absurd (hok.symm.trans hfault) (by simp)
    · exact hrows
  delete address cascade hrefused := by
    rcases delete_cases catalog address cascade with ⟨hremoved, -⟩ | ⟨-, hglanced⟩
    · exact absurd hremoved hrefused
    · exact hglanced.rows
  put address payload overwrite fault hfault := by
    rcases put_cases catalog address payload overwrite with ⟨key, version, hok, -⟩ | ⟨-, hgrows, -⟩
    · exact absurd (hok.symm.trans hfault) (by simp)
    · exact hgrows.addsBindings
  putFaulty address payload overwrite hfaulty := by
    obtain ⟨fault, hfault⟩ := hfaulty.checked
    exact ⟨fault, put_of_error catalog payload overwrite hfault⟩

/-- In a sound catalog the names on the path of an address are bound when its key has a row. -/
theorem Sound.read_of_taken (h : catalog.Sound) {address : Address} {key : Key}
    (hresolve : (address.resolveKey catalog.names).1 = .ok key)
    (htaken : (address.resolveKey catalog.names).2.rows.get? key.encode ≠ none) :
    catalog.names.Read (address.resolveKey catalog.names).2 := by
  obtain ⟨hgrows, -, hstored⟩ := Address.resolveKey_grows h.faithful h.kept.consistent address
  obtain ⟨bytes, hrow⟩ := Option.ne_none_iff_exists'.mp htaken
  rw [hgrows.get?_of_not_isBook (Layout.not_isBook_encode key)] at hrow
  -- The entity in the row was stored at some address, and names keep their ids while rows grow.
  obtain ⟨hconcrete, owner, -, howner, -⟩ := h.kept.entity hrow
  have hkept : owner.storedKey? (address.resolveKey catalog.names).2.rows = some key :=
    Address.storedKey?_mono (fun _ _ => hgrows.boundId?_eq_some) howner
  obtain rfl : owner = address := Address.storedKey?_injective
    (hgrows.consistent h.kept.consistent) hconcrete hkept (hstored key hresolve)
  exact (Address.resolveKey_of_storedKey? h.faithful h.kept.consistent howner).2

/-- A put that finds the entity there changes no row of a sound catalog. -/
theorem Sound.rows_put_of_exists (h : catalog.Sound) {address : Address} {payload : Bytes}
    {overwrite : Bool} {path : Path}
    (hexists : (catalog.put address payload overwrite).1 = .error (.entityExists path)) :
    (catalog.put address payload overwrite).2.rows = catalog.rows := by
  cases hchecked : address.checked with
  | error fault => rw [put_of_error catalog payload overwrite hchecked]
  | ok =>
    have hsingle := (address.checked_eq_ok_iff).mp hchecked
    cases hresolve : (address.resolveKey catalog.names).1 with
    | error fault =>
      obtain ⟨name, rfl⟩ :=
        Address.resolveKey_error h.faithful h.kept.consistent hsingle.levels hresolve
      rw [put_of_unresolved catalog payload overwrite hsingle.single_path hresolve] at hexists
      exact absurd hexists (by simp)
    | ok key =>
      rw [put_of_resolved catalog payload overwrite hsingle.single_path hresolve] at hexists ⊢
      rcases storeWith_cases { catalog with names := (address.resolveKey catalog.names).2 } address
        key payload overwrite with ⟨version, hok, -⟩ | ⟨fault, hfault, hrows, -, hdraw | htaken⟩
      · exact absurd (hok.symm.trans hexists) (by simp)
      · obtain rfl := Except.error.inj (hfault.symm.trans hexists)
        rcases TransactionIds.next_error hdraw with hstopped | ⟨floor, now, skew, hlags⟩
        · exact absurd hstopped (by simp)
        · exact absurd hlags (by simp)
      · rw [hrows]
        exact (h.read_of_taken hresolve htaken).rows

end Catalog

namespace Session

/-- Looks and failing operations spare the rows, whatever these are: only a put that fails may have
bound names. It has bound none when it finds the entity there, if the catalog works on the registry of
a session that started without rows. -/
theorem failures_spare_rows (config : Config) (ids : IdSource) (clock : Clock) (refusals : Nat)
    (calls : List Call) :
    (∀ catalog : Catalog, catalog.SparesRows) ∧
    ∀ catalog : Catalog,
      catalog.names = (callAll calls (create config .empty ids clock refusals)).names →
      ∀ address payload overwrite path,
        (catalog.put address payload overwrite).1 = .error (.entityExists path) →
        (catalog.put address payload overwrite).2.rows = catalog.rows := by
  refine ⟨Catalog.sparesRows, fun catalog hnames address payload overwrite path hexists => ?_⟩
  have hsession := (Sound.create config .empty ids clock refusals).callAll calls
  have hsound : catalog.Sound := by
    refine ⟨?_, hnames ▸ hsession.faithful⟩
    rw [Catalog.rows, hnames]
    exact hsession.kept
  exact hsound.rows_put_of_exists hexists

/-- A session with one metalake. -/
def oneLake : Session :=
  callAll [.act (.openCatalog none), .act (.operate (.put Catalog.lake Catalog.oneByte false))]
    (create {} .empty (.countingFrom 0) (.constant 1000) 0)

/-- The catalog of that session, with a generator that runs. -/
def oneLakeRunning : Catalog :=
  ⟨oneLake.names, ⟨⟨50, 10, 0⟩, 262144000, 0, true⟩, oneLake.clock, 0⟩

/-- The catalog of that session, with a generator that was never started. -/
def oneLakeStopped : Catalog := ⟨oneLake.names, .create ⟨50, 10, 0⟩, oneLake.clock, 0⟩

/-- A put over an entity writes nothing, and one that gets no version leaves the names that it bound. -/
theorem failures_spare_rows_oneLake :
    ((oneLakeRunning.put Catalog.lake [0x64] false).1 = .error (.entityExists (.root "lake")) ∧
      (oneLakeRunning.put Catalog.lake [0x64] false).2.rows = oneLakeRunning.rows) ∧
    (oneLakeStopped.put Catalog.lakeCat [0x64] false).1 = .error .notRunning ∧
      (oneLakeStopped.put Catalog.lakeCat [0x64] false).2.rows.get? (Layout.nameKey "0/ca:cat") =
        some (wordBytes 1) ∧
      Names.AddsBindings oneLakeStopped.rows
        (oneLakeStopped.put Catalog.lakeCat [0x64] false).2.rows := by
  obtain ⟨hspares, hexists⟩ := failures_spare_rows {} (.countingFrom 0) (.constant 1000) 0
    [.act (.openCatalog none), .act (.operate (.put Catalog.lake Catalog.oneByte false))]
  have htaken : (oneLakeRunning.put Catalog.lake [0x64] false).1 =
      .error (.entityExists (.root "lake")) := by rfl
  have hstopped : (oneLakeStopped.put Catalog.lakeCat [0x64] false).1 = .error .notRunning := by rfl
  exact ⟨⟨htaken, hexists oneLakeRunning rfl _ _ _ _ htaken⟩, hstopped, by rfl,
    (hspares oneLakeStopped).put _ _ _ _ hstopped⟩

end Session

end EntityCatalog
