import EntityCatalog.Proofs.Address.Events
import EntityCatalog.Proofs.Catalog.Renaming

/-!
# A rename keeps every key

To rename an entity, the registry moves the binding from its scoped name to the new one. Keys hold
ids, and no id changes. So each key that was found for the address, or for one that goes through it,
is found under the new name, and nothing is found under the old one any more. Every address that
goes through neither of the two names keeps what is found for it. This holds of wildcards as well,
and of addresses of all kinds at once.
-/

namespace EntityCatalog

namespace Names

/-- What a rename of the entity at an address makes of a registry: where keys are found, and which
rows change. -/
structure KeepsKeys (names after : Names) (address : Address) (name old new : String) (id : UInt64) :
    Prop where
  through : ∀ (other : Address) (kinds : List Kind), other.levels = .ok kinds →
    other = address ∨ address.Beneath other →
    ((other.withSegment address.path.levels.length name).findKey after).1 = (other.findKey names).1 ∧
      (other.findKey after).1 = .ok none
  apart : ∀ (other : Address) (kinds : List Kind), other.levels = .ok kinds →
    ¬ (other = address ∨ address.Beneath other) →
    ¬ (other = address.renamed name ∨ (address.renamed name).Beneath other) →
    (other.findKey after).1 = (other.findKey names).1
  rows : Moved names.rows after.rows old new id
  entities : ∀ key : Key, after.rows.get? key.encode = names.rows.get? key.encode

namespace Orderly

variable {names : Names}

/-- A rename leaves the books in order and the cache faithful. -/
theorem rename (h : names.Orderly) (old new : String) : (names.rename old new).2.Orderly :=
  h.happen (.serve (.rename old new) trivial)

/-- Looking up a fitting address finds the key that the rows store for it. -/
theorem findKey_eq (h : names.Orderly) {address : Address} (hfitting : address.Fitting) :
    (address.findKey names).1 = .ok (address.storedKey? names.rows) :=
  (Address.findKey_eq h.faithful h.consistent hfitting).1

/-- Looking up the name of a single entity below bound levels finds its scoped name. -/
theorem findName_eq (h : names.Orderly) {address : Address} (hsingle : address.Single)
    {above : List UInt64}
    (habove : Address.trail? names.rows (address.levelSteps address.kinds) [] = some above) :
    (address.findName names).1 = .ok (some (scopedName above address.kind address.path.leaf)) := by
  rw [(Address.findName_eq h.faithful h.consistent hsingle).1, habove]
  rfl

/-- Moving the id of an entity to a free name in the same scope keeps every key. -/
theorem keepsKeys (h : names.Orderly) {address : Address} (hsingle : address.Single) {name : String}
    (hname : Address.isConcrete name = true) (hne : name ≠ address.path.leaf) {above : List UInt64}
    {id : UInt64}
    (habove : Address.trail? names.rows (address.levelSteps address.kinds) [] = some above)
    (hid : boundId? names.rows (scopedName above address.kind address.path.leaf) = some id)
    (hfree : boundId? names.rows (scopedName above address.kind name) = none) :
    (names.rename (scopedName above address.kind address.path.leaf)
        (scopedName above address.kind name)).1 = .ok true ∧
      KeepsKeys names (names.rename (scopedName above address.kind address.path.leaf)
        (scopedName above address.kind name)).2 address name
        (scopedName above address.kind address.path.leaf) (scopedName above address.kind name) id := by
  have hscoped : scopedName above address.kind address.path.leaf ≠
      scopedName above address.kind name :=
    fun heq => hne (scopedName_injective heq).2.2.symm
  obtain ⟨hanswer, hmoved, -⟩ := renameWith_moves h.faithful h.consistent hscoped hid
    (fun taken htaken => absurd (hfree.symm.trans htaken) (by simp)) (by simp [SparesNames])
    (rfl : Rows.batch? [] names.rows = some names.rows)
  have hrebound : Address.Rebound names.rows _ address name above id :=
    ⟨hsingle, hname, habove, hid, hmoved⟩
  have hafter := h.rename (scopedName above address.kind address.path.leaf)
    (scopedName above address.kind name)
  refine ⟨hanswer, fun other kinds hlevels hthrough => ?_, fun other kinds hlevels hold hnew => ?_,
    hmoved, hrebound.get?_encode⟩
  · have hother := Address.fitting_of_levels hlevels
    have hline := (Address.line_prefix_steps_iff hsingle hother).mpr hthrough
    rw [hafter.findKey_eq (hrebound.fitting_moved hother hline), hafter.findKey_eq hother,
      h.findKey_eq hother]
    exact ⟨congrArg Except.ok (hrebound.storedKey?_moved hother hline),
      congrArg Except.ok (hrebound.storedKey?_old hne hother hline)⟩
  · have hother := Address.fitting_of_levels hlevels
    have hrenamed := hsingle.renamed hname
    rw [hafter.findKey_eq hother, h.findKey_eq hother]
    exact congrArg Except.ok (hrebound.storedKey?_other h.consistent hother
      (mt (Address.line_prefix_steps_iff hsingle hother).mp hold)
      (mt (Address.line_prefix_steps_iff hrenamed hother).mp hnew))

end Orderly

/-- After any events since there were no rows, renaming an entity to a free name succeeds and keeps
every key. -/
theorem rename_keepsKeys (config : Config) (ids : IdSource) (events : List Event) (address : Address)
    (name : String) (key : Key) :
    let names := happenAll events (.create config .empty ids)
    (address.findKey names).1 = .ok (some key) → address.path.isWildcard = false →
    Address.isConcrete name = true → name ≠ address.path.leaf →
    ∃ old new id, (address.findName names).1 = .ok (some old) ∧
      ((address.renamed name).findName names).1 = .ok (some new) ∧
      (names.find? old).1 = .ok (some id) ∧
      ((names.find? new).1 = .ok none →
        (names.rename old new).1 = .ok true ∧
          KeepsKeys names (names.rename old new).2 address name old new id) := by
  intro names hkey hwildcard hname hne
  have h : names.Orderly := (Orderly.create config .empty ids).happenAll events
  have hstored := (Address.findKey_eq_ok_some_iff h.faithful h.consistent address key).mp hkey
  have hsingle := Address.single_of_levels (Address.fitting_of_storedKey? hstored) hwildcard
  obtain ⟨above, id, habove, hid⟩ := Address.exists_bound hsingle hstored
  refine ⟨_, _, id, h.findName_eq hsingle habove, h.findName_eq (hsingle.renamed hname) habove, ?_,
    fun hfree => ?_⟩
  · rw [find?_eq h.faithful h.consistent, hid]
  · rw [find?_eq h.faithful h.consistent] at hfree
    exact h.keepsKeys hsingle hname hne habove hid (Except.ok.inj hfree)

/-- A registry that knows a catalog and a schema in it. -/
def stocked : Names :=
  happenAll [.resolveKey ⟨⟨["m", "c"], "s"⟩, .schema⟩] (.create {} .empty (.countingFrom 0))

/-- The catalog gets another name. -/
theorem rename_keepsKeys_stocked :
    (Address.findKey ⟨⟨["m"], "c"⟩, .catalog⟩ stocked).1 = .ok (some ⟨.catalog, [0, 1], false⟩) ∧
      (stocked.find? "0/ca:d").1 = .ok none ∧ (stocked.rename "0/ca:c" "0/ca:d").1 = .ok true ∧
      KeepsKeys stocked (stocked.rename "0/ca:c" "0/ca:d").2 ⟨⟨["m"], "c"⟩, .catalog⟩ "d"
        "0/ca:c" "0/ca:d" 1 := by
  have hkey : (Address.findKey ⟨⟨["m"], "c"⟩, .catalog⟩ stocked).1 =
      .ok (some ⟨.catalog, [0, 1], false⟩) := by rfl
  have hfree : (stocked.find? "0/ca:d").1 = .ok none := by rfl
  obtain ⟨old, new, id, hold, hnew, hid, hmoved⟩ := rename_keepsKeys {} (.countingFrom 0)
    [.resolveKey ⟨⟨["m", "c"], "s"⟩, .schema⟩] ⟨⟨["m"], "c"⟩, .catalog⟩ "d" _ hkey rfl rfl
    (by decide)
  obtain rfl : "0/ca:c" = old := Option.some.inj (Except.ok.inj hold)
  obtain rfl : "0/ca:d" = new := Option.some.inj (Except.ok.inj hnew)
  obtain rfl : 1 = id := Option.some.inj (Except.ok.inj hid)
  exact ⟨hkey, hfree, hmoved hfree⟩

end Names

end EntityCatalog
