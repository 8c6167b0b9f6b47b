import EntityCatalog.Proofs.Session.Calls

/-!
# Lists are the direct children, whatever happened before

In a session that started without rows, a catalog lists the entities directly in a namespace and no
others, after any calls: renames, removals that left bindings behind, and reopened registries among
them.
-/

namespace EntityCatalog

namespace Session

/-- After any calls since there were no rows, a catalog that is open over the session, with any
generator of versions, lists exactly the direct children of a namespace of concrete names. -/
theorem exists_directChildren (config : Config) (ids : IdSource) (clock : Clock) (refusals : Nat)
    (calls : List Call) (versions : TransactionIds) (levels : List String) (kind : Kind)
    (kinds : List Kind) (hkinds : kind.ancestors = some kinds) (hdepth : levels.length = kinds.length)
    (hnames : ∀ level ∈ levels, Address.isConcrete level = true) :
    let session := callAll calls (create config .empty ids clock refusals)
    ∃ entries, Catalog.Lists ⟨session.names, versions, session.clock, session.refusals⟩ levels kind
      entries := by
  intro session
  have h : session.Sound := (Sound.create config .empty ids clock refusals).callAll calls
  have hlevels := (Address.levels_wildcard_eq_ok_iff levels kind kinds).mpr ⟨hkinds, hdepth, hnames⟩
  exact Catalog.exists_lists ⟨h.kept, h.faithful⟩ (Address.fitting_of_levels hlevels)

/-- A payload of one byte. -/
def tinyPayload : Payload := ⟨[0x70], by decide⟩

/-- A catalog with two children in one namespace, the second of which has the lower id. -/
def twoChildren : Session :=
  callAll [.act (.openCatalog none), .act (.operate (.put ⟨⟨["m"], "a"⟩, .catalog⟩ tinyPayload false)),
      .act (.operate (.put ⟨⟨["m"], "b"⟩, .catalog⟩ tinyPayload false))]
    (create {} .empty (.listed [9, 5, 3]) (.constant 1000) 0)

/-- They are listed in the order of their ids. -/
theorem exists_directChildren_two :
    ∃ entries, Catalog.Lists ⟨twoChildren.names, .create ⟨50, 10, 0⟩, twoChildren.clock, 0⟩ ["m"]
        .catalog entries ∧
      entries = [(⟨["m"], "b"⟩, ⟨262144001, [0x70]⟩), (⟨["m"], "a"⟩, ⟨262144000, [0x70]⟩)] := by
  obtain ⟨entries, hentries⟩ := exists_directChildren {} (.listed [9, 5, 3]) (.constant 1000) 0
    [.act (.openCatalog none), .act (.operate (.put ⟨⟨["m"], "a"⟩, .catalog⟩ tinyPayload false)),
      .act (.operate (.put ⟨⟨["m"], "b"⟩, .catalog⟩ tinyPayload false))]
    (.create ⟨50, 10, 0⟩) ["m"] .catalog [.metalake] rfl rfl (by simp [Address.isConcrete, wildcardName])
  have hlisted : (Catalog.list ⟨twoChildren.names, .create ⟨50, 10, 0⟩, twoChildren.clock, 0⟩ ["m"]
      .catalog none).1 =
      .ok [(⟨["m"], "b"⟩, ⟨262144001, [0x70]⟩), (⟨["m"], "a"⟩, ⟨262144000, [0x70]⟩)] := by rfl
  exact ⟨entries, hentries, Except.ok.inj (hentries.all.symm.trans hlisted)⟩

end Session

end EntityCatalog
