import EntityCatalog.Catalog.Update
import EntityCatalog.Proofs.Catalog.Removal
import EntityCatalog.Proofs.Catalog.Renaming

/-!
# Looking entities up

A catalog is sound when its rows are well kept and its cache is faithful. A sound catalog answers
every look at an address from its contents, once the path of the address has passed the checks, and
a look changes nothing but the cache.
-/

namespace EntityCatalog

/-- The checks of a path that is to stand for one entity. -/
def Address.checked (address : Address) : Except Error Unit :=
  match Catalog.single address.path with
  | .error fault => .error fault
  | .ok () => address.levels.map fun _ => ()

namespace Address

/-- An address of a single entity passes the checks of every operation. -/
theorem checked_of_single {address : Address} (h : address.Single) : address.checked = .ok () := by
  rw [checked, Catalog.single, h.concrete, if_neg Bool.false_ne_true, h.levels]
  rfl

/-- The checks are passed by the addresses that stand for one entity. -/
theorem checked_eq_ok_iff (address : Address) : address.checked = .ok () ↔ address.Single := by
  refine ⟨fun h => ?_, checked_of_single⟩
  rw [checked, Catalog.single] at h
  by_cases hwildcard : address.path.isWildcard = true
  · rw [if_pos hwildcard] at h
    exact absurd h (by simp)
  · rw [if_neg hwildcard] at h
    cases hlevels : address.levels with
    | error fault =>
      rw [hlevels] at h
      exact absurd h (by simp [Except.map])
    | ok kinds => exact single_of_levels hlevels (Bool.eq_false_iff.mpr hwildcard)

/-- A path fails the checks for being a wildcard, or for not fitting its kind. -/
theorem checked_eq_error {address : Address} {fault : Error} (h : address.checked = .error fault) :
    Catalog.single address.path = .error fault ∨
      Catalog.single address.path = .ok () ∧ address.levels = .error fault := by
  rw [checked] at h
  cases hsingle : Catalog.single address.path with
  | error fault' =>
    rw [hsingle] at h
    exact Or.inl h
  | ok =>
    rw [hsingle] at h
    cases hlevels : address.levels with
    | error fault' =>
      rw [hlevels] at h
      exact Or.inr ⟨rfl, congrArg Except.error (Except.error.inj h)⟩
    | ok kinds =>
      rw [hlevels] at h
      exact absurd h (by simp [Except.map])

end Address

namespace Catalog

/-- A path is taken for that of one entity unless it is a wildcard. -/
theorem single_eq_ok_iff (path : Path) : single path = .ok () ↔ path.isWildcard = false := by
  rw [single]
  cases path.isWildcard <;> simp

end Catalog

/-- The path of a single entity passes for one. -/
theorem Address.Single.single_path {address : Address} (h : address.Single) :
    Catalog.single address.path = .ok () :=
  (Catalog.single_eq_ok_iff address.path).mpr h.concrete

namespace Catalog

/-- A catalog that works on well-kept rows with a faithful cache. -/
structure Sound (catalog : Catalog) : Prop where
  kept : Kept catalog.rows
  faithful : catalog.names.Faithful

/-- The record at each address. -/
def contents (catalog : Catalog) (address : Address) : Option Record :=
  address.record? catalog.rows

/-- A catalog after a look at its registry. -/
structure Looked (catalog after : Catalog) : Prop where
  names : catalog.names.Read after.names
  versions : after.versions = catalog.versions
  clock : after.clock = catalog.clock
  refusals : after.refusals = catalog.refusals

namespace Looked

variable {catalog after last : Catalog}

/-- Doing nothing to a sound catalog is a look at it. -/
theorem refl (h : catalog.Sound) : catalog.Looked catalog := ⟨.refl h.faithful, rfl, rfl, rfl⟩

/-- Two looks are a look. -/
theorem trans (h : catalog.Looked after) (h' : after.Looked last) : catalog.Looked last :=
  ⟨h.names.trans h'.names, h'.versions.trans h.versions, h'.clock.trans h.clock,
    h'.refusals.trans h.refusals⟩

/-- A look changes no row. -/
theorem rows (h : catalog.Looked after) : after.rows = catalog.rows := h.names.rows

/-- A look leaves a catalog sound. -/
theorem sound (h : catalog.Looked after) (hsound : catalog.Sound) : after.Sound :=
  ⟨h.rows ▸ hsound.kept, h.names.faithful⟩

/-- A look leaves the contents as they are. -/
theorem contents (h : catalog.Looked after) : after.contents = catalog.contents := by
  funext address
  rw [Catalog.contents, Catalog.contents, h.rows]

/-- A look draws no version. -/
theorem nextVersion_fst (h : catalog.Looked after) :
    after.nextVersion.1 = catalog.nextVersion.1 := by
  rw [nextVersion, nextVersion, h.versions, h.clock]

end Looked

variable {catalog : Catalog}

/-- A record is held at the address of a single entity only. -/
theorem Sound.contents_single (h : catalog.Sound) {address : Address} {record : Record}
    (hrecord : catalog.contents address = some record) : address.Single :=
  h.kept.single hrecord

/-- An operation that reads the registry is a look at the catalog. -/
theorem onNames_looked {α : Type} (operation : Names → α × Names)
    (h : catalog.names.Read (operation catalog.names).2) :
    catalog.Looked (catalog.onNames operation).2 :=
  ⟨h, rfl, rfl, rfl⟩

/-- A path that does not fit its kind has nothing to be loaded. -/
theorem load_of_error {address : Address} {fault : Error} (catalog : Catalog)
    (hlevels : address.levels = .error fault) : catalog.load address = (.error fault, catalog) := by
  rw [load, onNames, Address.findKey_of_error _ hlevels]

/-- Loading gives the stored key of an address and the record at it, if there is one. -/
theorem load_eq (h : catalog.Sound) {address : Address} (hsingle : address.Single) :
    (catalog.load address).1 = .ok ((address.storedKey? catalog.rows).bind fun key =>
        (catalog.contents address).map fun record => (key.encode, record)) ∧
      catalog.Looked (catalog.load address).2 := by
  obtain ⟨hanswer, hread⟩ := Address.findKey_eq h.faithful h.kept.consistent hsingle.levels
  have hlooked := onNames_looked address.findKey hread
  rw [load]
  cases hfind : catalog.onNames address.findKey with
  | mk answer after =>
    have hfound : answer = .ok (address.storedKey? catalog.rows) :=
      (congrArg Prod.fst hfind).symm.trans hanswer
    rw [hfind] at hlooked
    subst hfound
    cases hkey : address.storedKey? catalog.rows with
    | none => exact ⟨rfl, hlooked⟩
    | some key =>
      have hrow : after.rows.get? key.encode = (catalog.contents address).map Record.encode := by
        rw [hlooked.rows]
        exact h.kept.get?_storedKey? hkey
      dsimp only
      cases hrecord : catalog.contents address with
      | none =>
        rw [hrow, hrecord]
        exact ⟨rfl, hlooked⟩
      | some record =>
        obtain ⟨-, -, -, hfits, -⟩ := (h.kept.record?_eq_some_iff address record).mp hrecord
        rw [hrow, hrecord, Option.map_some]
        dsimp only
        rw [Record.read_eq_ok (Record.decode?_encode record hfits)]
        exact ⟨rfl, hlooked⟩

/-- Nothing is loaded where there is no entity. -/
theorem load_of_none (h : catalog.Sound) {address : Address} (hsingle : address.Single)
    (hnone : catalog.contents address = none) :
    (catalog.load address).1 = .ok none ∧ catalog.Looked (catalog.load address).2 := by
  obtain ⟨hanswer, hlooked⟩ := load_eq h hsingle
  refine ⟨?_, hlooked⟩
  rw [hanswer, hnone]
  cases address.storedKey? catalog.rows <;> rfl

/-- An entity is loaded with its stored key. -/
theorem load_of_some (h : catalog.Sound) {address : Address} {record : Record}
    (hrecord : catalog.contents address = some record) :
    ∃ key, address.storedKey? catalog.rows = some key ∧ key.wildcard = false ∧
      (catalog.load address).1 = .ok (some (key.encode, record)) ∧
      catalog.Looked (catalog.load address).2 := by
  obtain ⟨key, hkey, hconcrete, -, -⟩ := (h.kept.record?_eq_some_iff address record).mp hrecord
  obtain ⟨hanswer, hlooked⟩ := load_eq h (h.contents_single hrecord)
  refine ⟨key, hkey, hconcrete, ?_, hlooked⟩
  rw [hanswer, hkey, hrecord]
  rfl

/-- What is got at an address is what the contents hold there. -/
theorem get?_eq (h : catalog.Sound) (address : Address) :
    (catalog.get? address).1 = address.checked.map (fun _ => catalog.contents address) ∧
      catalog.Looked (catalog.get? address).2 := by
  cases hchecked : address.checked with
  | error fault =>
    rcases Address.checked_eq_error hchecked with hsingle | ⟨hsingle, hlevels⟩
    · rw [get?, hsingle]
      exact ⟨rfl, .refl h⟩
    · rw [get?, hsingle]
      dsimp only
      rw [load_of_error catalog hlevels]
      exact ⟨rfl, .refl h⟩
  | ok =>
    have hsingle := (address.checked_eq_ok_iff).mp hchecked
    rw [get?, hsingle.single_path]
    dsimp only
    cases hrecord : catalog.contents address with
    | none =>
      obtain ⟨hanswer, hlooked⟩ := load_of_none h hsingle hrecord
      cases hload : catalog.load address with
      | mk answer after =>
        rw [hload] at hanswer hlooked
        obtain rfl := hanswer
        exact ⟨rfl, hlooked⟩
    | some record =>
      obtain ⟨key, -, -, hanswer, hlooked⟩ := load_of_some h hrecord
      cases hload : catalog.load address with
      | mk answer after =>
        rw [hload] at hanswer hlooked
        obtain rfl := hanswer
        exact ⟨rfl, hlooked⟩

/-- Whether there is an entity is told by the contents. -/
theorem contains_eq (h : catalog.Sound) (address : Address) :
    (catalog.contains address).1 =
        address.checked.map (fun _ => (catalog.contents address).isSome) ∧
      catalog.Looked (catalog.contains address).2 := by
  obtain ⟨hanswer, hlooked⟩ := get?_eq h address
  rw [contains]
  cases hget : catalog.get? address with
  | mk answer after =>
    rw [hget] at hanswer hlooked
    obtain rfl := hanswer
    cases address.checked with
    | error fault => exact ⟨rfl, hlooked⟩
    | ok => exact ⟨rfl, hlooked⟩

/-- The record at an address, or the report that there is no entity. -/
theorem get_eq (h : catalog.Sound) (address : Address) :
    (catalog.get address).1 =
        address.checked.bind (fun _ =>
          match catalog.contents address with
          | some record => .ok record
          | none => .error (.noSuchEntity address.path)) ∧
      catalog.Looked (catalog.get address).2 := by
  obtain ⟨hanswer, hlooked⟩ := get?_eq h address
  rw [get]
  cases hget : catalog.get? address with
  | mk answer after =>
    rw [hget] at hanswer hlooked
    obtain rfl := hanswer
    cases address.checked with
    | error fault => exact ⟨rfl, hlooked⟩
    | ok =>
      cases hrecord : catalog.contents address with
      | none => exact ⟨rfl, hlooked⟩
      | some record => exact ⟨rfl, hlooked⟩

end Catalog

end EntityCatalog
