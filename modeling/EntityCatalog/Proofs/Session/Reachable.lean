import EntityCatalog.Proofs.Catalog.Refinement
import EntityCatalog.Proofs.TransactionIds.Remark
import EntityCatalog.Session

/-!
# No stored entity is stranded

A session that starts without rows may encode addresses, open and leave its catalog, operate on it,
use its generators, and be reopened with any source of ids. Whatever it does, its rows stay well
kept. So each row is of one family and well formed, and the key of each entity row reads back as an
address under which the same key is found.
-/

namespace EntityCatalog

/-- The families of rows. -/
inductive Family where
  | mark | name | id | entity
deriving DecidableEq, Repr

/-- The form of the rows of each family. -/
def Family.Has : Family → Row → Prop
  | mark, row => row.1 = Layout.markKey ∧ row.2.length = wordWidth
  | name, row => ∃ name, row.1 = Layout.nameKey name ∧ row.2.length = wordWidth
  | id, row => ∃ id name, row.1 = Layout.idKey id ∧ row.2 = Text.utf8 name
  | entity, row => ∃ kind depth ids record, Kind.depth kind = some depth ∧
      ids.length = depth + 1 ∧ row.1 = Key.encode ⟨kind, ids, false⟩ ∧
      Record.decode? row.2 = some record

namespace Family

/-- The third byte of the keys of each family. -/
def sign : Family → UInt8
  | mark => 0x73
  | name => 0x6d
  | id => 0x5f
  | entity => Key.separator

/-- Different families have different signs. -/
theorem sign_injective {family family' : Family} (h : family.sign = family'.sign) :
    family = family' := by
  revert h
  cases family <;> cases family' <;> decide

/-- The third byte of a key is the sign of its family. -/
theorem getElem?_of_has {family : Family} {row : Row} (h : family.Has row) :
    row.1[Key.codeWidth]? = some family.sign := by
  cases family with
  | mark => rw [h.1]; exact Layout.markKey_getElem?
  | name =>
    obtain ⟨name, hkey, -⟩ := h
    rw [hkey]
    exact Layout.nameKey_getElem? name
  | id =>
    obtain ⟨id, -, hkey, -⟩ := h
    rw [hkey]
    exact Layout.idKey_getElem? id
  | entity =>
    obtain ⟨kind, depth, ids, -, -, hids, hkey, -⟩ := h
    rw [hkey]
    refine (Key.encode_getElem?_codeWidth ⟨kind, ids, false⟩).resolve_left fun hnone => ?_
    have hlength := List.getElem?_eq_none_iff.mp hnone
    rw [Key.encode_length, hids] at hlength
    simp only [Key.codeWidth, Key.segmentWidth, wordWidth] at hlength
    omega

/-- A row has the form of one family at most. -/
theorem has_unique {family family' : Family} {row : Row} (h : family.Has row)
    (h' : family'.Has row) : family = family' :=
  sign_injective (Option.some.inj ((getElem?_of_has h).symm.trans (getElem?_of_has h')))

end Family

/-- A row that is accounted for has the form of a family. -/
theorem Accounted.exists_family {rows : Rows} {key bytes : Bytes} (h : Accounted rows key bytes) :
    ∃ family : Family, family.Has (key, bytes) := by
  cases h with
  | mark mark => exact ⟨.mark, rfl, wordBytes_length mark⟩
  | name name id => exact ⟨.name, name, rfl, wordBytes_length id⟩
  | id id name => exact ⟨.id, id, name, rfl, rfl⟩
  | entity address key record hkey hconcrete hfits =>
    have hsingle := Address.single_of_storedKey? hkey hconcrete
    obtain ⟨ids, hids, rfl⟩ := (hsingle.storedKey?_eq_some_iff rows key).mp hkey
    exact ⟨.entity, address.kind, address.kinds.length, ids, record, hsingle.depth,
      by rw [Address.trail?_length hids, hsingle.length_line], rfl,
      Record.decode?_encode record hfits⟩

/-! ## Marks -/

namespace Remarked

variable {rows rows' : Rows}

/-- The name rows do not change with the mark. -/
theorem get?_nameKey (h : Remarked rows rows') (name : String) :
    rows'.get? (Layout.nameKey name) = rows.get? (Layout.nameKey name) := by
  rcases h with rfl | ⟨mark, rfl⟩
  · rfl
  · exact Rows.get?_insert_of_ne rows _ (Layout.nameKey_ne_markKey name).symm

/-- The rows of entities do not change with the mark. -/
theorem get?_encode (h : Remarked rows rows') (key : Key) :
    rows'.get? key.encode = rows.get? key.encode := by
  rcases h with rfl | ⟨mark, rfl⟩
  · rfl
  · exact Rows.get?_insert_of_ne rows _ (Layout.encode_ne_markKey key).symm

/-- Well-kept rows stay so with another mark. -/
theorem kept (h : Remarked rows rows') (hrows : Kept rows) : Kept rows' := by
  rcases h with rfl | ⟨mark, rfl⟩
  · exact hrows
  · exact hrows.insertMark mark

end Remarked

/-! ## Sessions -/

namespace Session

/-- What may happen in a session that leaves the registry to the catalog and the encoder. The system
may refuse a generator its thread, and a cached binding expires at any time, whatever the idle time of
the cache. -/
inductive Action where
  | encode (address : Address)
  | expire (name : String)
  | openCatalog (refusal : Option String)
  | leaveCatalog
  | closeCatalog
  | operate (operation : Operation)
  | settleCatalog (duration : Nat)
  | startIds (refusal : Option String)
  | nextId
  | stopIds
  | replaceIds
  | settle (duration : Nat)
  | setClock (clock : Clock)
  | refuse (writes : Nat)
  | reopen (ids : Option IdSource)

/-- The session after an operation on its catalog, if that is open. -/
def onOpenCatalog {α : Type} (session : Session) (operation : Catalog → α × Catalog) : Session :=
  match session.onCatalog? operation with
  | some (_, after) => after
  | none => session

/-- An operation on a closed catalog does nothing. -/
theorem onOpenCatalog_of_none {session : Session} (h : session.versions = none) {α : Type}
    (operation : Catalog → α × Catalog) : session.onOpenCatalog operation = session := by
  rw [onOpenCatalog, onCatalog?, h, Option.map_none]

/-- An operation on an open catalog uses its generator. -/
theorem onOpenCatalog_of_some {session : Session} {versions : TransactionIds}
    (h : session.versions = some versions) {α : Type} (operation : Catalog → α × Catalog) :
    session.onOpenCatalog operation = (session.onVersions versions operation).2 := by
  rw [onOpenCatalog, onCatalog?, h, Option.map_some]

/-- The session after time has passed for the generator of its catalog. -/
def settleCatalog (session : Session) (duration : Nat) : Session :=
  match session.versions with
  | none => session
  | some versions =>
    match versions.settle session.marks duration with
    | (versions, store) => { session.withMarks store with versions := some versions }

/-- One action. A session that cannot be reopened stays as it is. -/
def act : Action → Session → Session
  | .encode address, session => (session.onNames address.resolveKey).2
  | .expire name, session => { session with names := session.names.forget name }
  | .openCatalog refusal, session => (session.openCatalog refusal).2
  | .leaveCatalog, session => session.leaveCatalog
  | .closeCatalog, session => session.onOpenCatalog Catalog.close
  | .operate operation, session => session.onOpenCatalog operation.perform
  | .settleCatalog duration, session => session.settleCatalog duration
  | .startIds refusal, session => (session.startIds refusal).2
  | .nextId, session => session.nextId.2
  | .stopIds, session => session.stopIds.2
  | .replaceIds, session => session.replaceIds
  | .settle duration, session => session.settle duration
  | .setClock clock, session => { session with clock }
  | .refuse writes, session => { session with refusals := writes }
  | .reopen ids, session =>
    match session.reopen ids with
    | .ok after => after
    | .error _ => session

/-- The session after a list of actions in turn. -/
def actAll : List Action → Session → Session
  | [], session => session
  | action :: rest, session => actAll rest (act action session)

/-- A session that works on well-kept rows with a faithful cache. -/
structure Sound (session : Session) : Prop where
  kept : Kept session.rows
  faithful : session.names.Faithful

namespace Sound

variable {session : Session}

/-- A session on well-kept rows starts out sound. -/
theorem create (config : Config) {rows : Rows} (hrows : Kept rows) (ids : IdSource) (clock : Clock)
    (refusals : Nat) : (Session.create config rows ids clock refusals).Sound :=
  ⟨hrows, .create rows _ _ ids⟩

/-- A session stays sound when a generator has used its mark store. -/
theorem withMarks (h : session.Sound) {store : MarkStore} (hstore : Remarked session.rows store.rows) :
    (session.withMarks store).Sound :=
  ⟨hstore.kept h.kept,
    h.faithful.mono (Cache.Within.refl _) fun name _ _ => hstore.get?_nameKey name⟩

/-- A session stays sound when its catalog is left. -/
theorem leaveCatalog (h : session.Sound) : session.leaveCatalog.Sound := by
  rw [Session.leaveCatalog]
  split
  · exact h
  · rename_i versions _
    have hleft := h.withMarks (TransactionIds.stop_remarked versions session.marks)
    exact ⟨hleft.kept, hleft.faithful⟩

/-- A session stays sound when its catalog does. -/
theorem onVersions {α : Type} {versions : TransactionIds} {operation : Catalog → α × Catalog}
    (h : (operation ⟨session.names, versions, session.clock, session.refusals⟩).2.Sound) :
    (session.onVersions versions operation).2.Sound :=
  ⟨h.kept, h.faithful⟩

/-- A session stays sound under an operation that keeps catalogs sound. -/
theorem onOpenCatalog (h : session.Sound) {α : Type} {operation : Catalog → α × Catalog}
    (hoperation : ∀ catalog : Catalog, catalog.Sound → (operation catalog).2.Sound) :
    (session.onOpenCatalog operation).Sound := by
  rw [Session.onOpenCatalog, onCatalog?]
  cases session.versions with
  | none => exact h
  | some versions => exact onVersions (hoperation _ ⟨h.kept, h.faithful⟩)

end Sound

end Session

namespace Catalog

/-- Closing a catalog writes the mark at most. -/
theorem Sound.close {catalog : Catalog} (h : catalog.Sound) : catalog.close.2.Sound := by
  have hstop := TransactionIds.stop_remarked catalog.versions catalog.marks
  exact ⟨hstop.kept h.kept,
    h.faithful.mono (Cache.Within.refl _) fun name _ _ => hstop.get?_nameKey name⟩

end Catalog

namespace Session

/-- Opening the catalog does no more to the registry than leaving the one that is open. -/
theorem names_openCatalog (session : Session) (refusal : Option String) :
    (session.openCatalog refusal).2.names = session.leaveCatalog.names := by
  have hopened : (session.leaveCatalog.onVersions (.create session.config.timing)
      (·.start refusal)).2.names = session.leaveCatalog.names := rfl
  rw [Session.openCatalog]
  split
  · rename_i after heq
    rwa [heq] at hopened
  · rename_i fault after heq
    rwa [heq] at hopened

/-- Opening the catalog keeps a session sound. -/
theorem Sound.openCatalog {session : Session} (h : session.Sound) (refusal : Option String) :
    (session.openCatalog refusal).2.Sound := by
  have hnames := names_openCatalog session refusal
  refine ⟨?_, ?_⟩
  · rw [Session.rows, hnames]
    exact h.leaveCatalog.kept
  · rw [hnames]
    exact h.leaveCatalog.faithful

/-- The rows that are left of a session are well kept. -/
theorem Sound.leave {session : Session} (h : session.Sound) : Kept session.leave.rows :=
  (TransactionIds.stop_remarked session.leaveCatalog.generator session.leaveCatalog.marks).kept
    h.leaveCatalog.kept

/-- A session that is reopened starts anew on the rows that were left. -/
theorem eq_create_of_reopen {session after : Session} {ids : Option IdSource}
    (hreopen : session.reopen ids = .ok after) :
    ∃ source, after = create session.config session.leave.rows source session.clock
      session.leave.refusals := by
  cases ids with
  | some source => exact ⟨source, (Except.ok.inj hreopen).symm⟩
  | none =>
    cases hhighest : Names.highestId? session.leave.rows with
    | error fault =>
      simp only [Session.reopen, hhighest] at hreopen
      exact absurd hreopen (by simp [Except.map])
    | ok highest =>
      simp only [Session.reopen, hhighest] at hreopen
      exact ⟨_, (Except.ok.inj hreopen).symm⟩

/-- A session that is reopened is sound. -/
theorem Sound.reopen {session after : Session} {ids : Option IdSource} (h : session.Sound)
    (hreopen : session.reopen ids = .ok after) : after.Sound := by
  obtain ⟨source, rfl⟩ := eq_create_of_reopen hreopen
  exact .create _ h.leave source _ _

/-- Every action keeps a session sound. -/
theorem Sound.act {session : Session} (h : session.Sound) (action : Action) :
    (Session.act action session).Sound := by
  cases action with
  | encode address =>
    obtain ⟨hgrows, hfaithful, -⟩ := Address.resolveKey_grows h.faithful h.kept.consistent address
    exact ⟨h.kept.grows hgrows, hfaithful⟩
  | expire name => exact ⟨h.kept, h.faithful.forget name⟩
  | openCatalog refusal => exact h.openCatalog refusal
  | leaveCatalog => exact h.leaveCatalog
  | closeCatalog => exact h.onOpenCatalog fun _ hcatalog => hcatalog.close
  | operate operation =>
    exact h.onOpenCatalog fun _ hcatalog => (Operation.perform_meets hcatalog operation).1
  | settleCatalog duration =>
    rw [Session.act, Session.settleCatalog]
    split
    · exact h
    · rename_i versions _
      have hsettled :=
        h.withMarks (TransactionIds.settle_remarked versions session.marks duration)
      exact ⟨hsettled.kept, hsettled.faithful⟩
  | startIds refusal => exact ⟨h.kept, h.faithful⟩
  | nextId => exact ⟨h.kept, h.faithful⟩
  | stopIds =>
    have hstopped := h.withMarks (TransactionIds.stop_remarked session.generator session.marks)
    exact ⟨hstopped.kept, hstopped.faithful⟩
  | replaceIds =>
    have hstopped := h.withMarks (TransactionIds.stop_remarked session.generator session.marks)
    exact ⟨hstopped.kept, hstopped.faithful⟩
  | settle duration =>
    have hsettled :=
      h.withMarks (TransactionIds.settle_remarked session.generator session.marks duration)
    exact ⟨hsettled.kept, hsettled.faithful⟩
  | setClock clock => exact ⟨h.kept, h.faithful⟩
  | refuse writes => exact ⟨h.kept, h.faithful⟩
  | reopen ids =>
    rw [Session.act]
    split
    · rename_i after hreopen
      exact h.reopen hreopen
    · exact h

/-- Every run of actions keeps a session sound. -/
theorem Sound.actAll {session : Session} (h : session.Sound) (actions : List Action) :
    (Session.actAll actions session).Sound := by
  induction actions generalizing session with
  | nil => exact h
  | cons action rest ih => exact ih (h.act action)

/-- Every row of a session is well formed and of one family, and the key of every entity row reads
back as an address under which it is found. -/
theorem rows_wellFormed_and_reachable (config : Config) (ids : IdSource) (clock : Clock)
    (refusals : Nat) (actions : List Action) :
    let session := actAll actions (create config .empty ids clock refusals)
    ∀ row ∈ session.rows.toList,
      (∃ family : Family, family.Has row ∧ ∀ other : Family, other.Has row → other = family) ∧
      (Family.entity.Has row → ∃ address key, Address.read session.rows row.1 = .ok address ∧
        (address.findKey session.names).1 = .ok (some key) ∧ key.encode = row.1) := by
  intro session row hrow
  have hsound : session.Sound := (Sound.create config .empty ids clock refusals).actAll actions
  have hget := (Rows.mem_toList_iff session.rows row).mp hrow
  constructor
  · obtain ⟨family, hfamily⟩ := (hsound.kept.accounted row.1 row.2 hget).exists_family
    exact ⟨family, hfamily, fun other hother => Family.has_unique hother hfamily⟩
  · rintro ⟨kind, depth, ids, -, -, -, hkey, -⟩
    rw [hkey] at hget ⊢
    obtain ⟨hconcrete, address, -, hstored, -, -⟩ := hsound.kept.entity hget
    have hsingle := Address.single_of_storedKey? hstored hconcrete
    refine ⟨address, _, Address.read_storedKey? hsound.kept.consistent hstored hconcrete, ?_, rfl⟩
    rw [(Address.findKey_eq hsound.faithful hsound.kept.consistent hsingle.levels).1]
    exact congrArg Except.ok hstored

end Session

end EntityCatalog
