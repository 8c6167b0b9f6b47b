import EntityCatalog.Proofs.Address.Shape
import EntityCatalog.Proofs.Catalog.Twins

/-!
# Where operations write

Whatever the rows hold and whatever is cached, an operation writes under few keys, and its arguments and
what it found say which. Requests to the registry and the resolving of keys write the books. A put
writes one entity row next to them, a removal entity rows alone. An update writes the row of its entity,
and when it renames, the rows of the two names and of the id that moves between them.
-/

namespace EntityCatalog

/-- The second rows differ from the first at most under certain keys. -/
def Rows.Confined (keys : Bytes → Prop) (rows rows' : Rows) : Prop :=
  ∀ key, ¬ keys key → rows'.get? key = rows.get? key

namespace Rows.Confined

variable {keys keys' : Bytes → Prop} {rows mid rows' : Rows}

/-- Rows do not differ from themselves. -/
theorem refl (keys : Bytes → Prop) (rows : Rows) : Confined keys rows rows := fun _ _ => rfl

/-- Differences under certain keys add up to differences under these keys. -/
theorem trans (h : Confined keys rows mid) (h' : Confined keys mid rows') :
    Confined keys rows rows' :=
  fun key hkey => (h' key hkey).trans (h key hkey)

/-- Rows that differ under certain keys at most differ under more keys at most. -/
theorem mono (h : Confined keys rows rows') (hkeys : ∀ key, keys key → keys' key) :
    Confined keys' rows rows' :=
  fun key hkey => h key fun hin => hkey (hkeys key hin)

/-- Storing a value changes its own key at most. -/
theorem insert (key value : Bytes) (rows : Rows) :
    Confined (· = key) rows (rows.insert key value) :=
  fun _ hkey => Rows.get?_insert_of_ne rows value fun heq => hkey heq.symm

/-- A batch writes under the keys that its changes touch. -/
theorem batch (changes : List Change) (rows : Rows) :
    Confined (fun key => ∃ change ∈ changes, change.Touches key) rows (rows.batch changes).2 :=
  fun _ hkey => Rows.get?_batch_of_not_touches rows fun change hchange htouch =>
    hkey ⟨change, hchange, htouch⟩

end Rows.Confined

open Rows (Confined)

namespace Names

/-- Rows that grow by bindings grow within the books. -/
theorem Grows.confined {rows rows' : Rows} (h : Grows rows rows') :
    Confined Layout.IsBook rows rows' :=
  fun _ hkey => h.get?_of_not_isBook hkey

/-- The keys under which a rename may write: those of the rows of the two names, and that of the row of
the id that the old name has. -/
def MoveKey (rows : Rows) (old new : String) (key : Bytes) : Prop :=
  key = Layout.nameKey old ∨ key = Layout.nameKey new ∨
    ∃ id, storedId? rows old = .ok (some id) ∧ key = Layout.idKey id

/-- The rows that a move may change are in the books. -/
theorem MoveKey.isBook {rows : Rows} {old new : String} {key : Bytes}
    (h : MoveKey rows old new key) : Layout.IsBook key := by
  rcases h with rfl | rfl | ⟨id, -, rfl⟩
  · exact Layout.isBook_nameKey old
  · exact Layout.isBook_nameKey new
  · exact Layout.isBook_idKey id

/-- The changes of a rename touch, next to what goes along, the rows of the two names and the id. -/
theorem touches_renameChanges {rows : Rows} {old new : String} {id : UInt64}
    {replaced : Option UInt64} {along changes : List Change}
    (hold : storedId? rows old = .ok (some id))
    (h : renameChanges rows old new id replaced along = .ok changes) {key : Bytes}
    (hkey : ∃ change ∈ changes, change.Touches key) :
    MoveKey rows old new key ∨ ∃ change ∈ along, change.Touches key := by
  obtain ⟨change, hchange, htouch⟩ := hkey
  rcases renameChanges_cases h with rfl | ⟨bound, freed, hfreed, rfl⟩
  · exact Or.inr ⟨change, hchange, htouch⟩
  · rw [List.mem_append, List.mem_append] at hchange
    rcases hchange with (halong | hfree) | hmove
    · exact Or.inr ⟨change, halong, htouch⟩
    · rw [mem_freeChanges hfreed hfree] at htouch
      exact Or.inl (Or.inr (Or.inl htouch.symm))
    · simp only [moveChanges, List.mem_cons, List.not_mem_nil, or_false] at hmove
      rcases hmove with rfl | rfl | rfl
      · exact Or.inl (Or.inl htouch.symm)
      · exact Or.inl (Or.inr (Or.inl htouch.symm))
      · exact Or.inl (Or.inr (Or.inr ⟨id, hold, htouch.symm⟩))

/-- A rename writes the rows of the two names and the id, and what goes along. -/
theorem confined_renameWith (names : Names) (old new : String) (replaced : Option UInt64)
    (along : List Change) :
    Confined (fun key => MoveKey names.rows old new key ∨ ∃ change ∈ along, change.Touches key)
      names.rows (names.renameWith old new replaced along).2.rows := by
  rw [renameWith]
  split
  · exact .refl _ _
  · exact .refl _ _
  · rename_i id hold
    split
    · exact .refl _ _
    · rename_i changes hchanges
      rw [rows_commitRename]
      exact (Confined.batch changes names.rows).mono fun key => touches_renameChanges hold hchanges

/-- A rename by itself writes the rows of the two names and the id. -/
theorem confined_rename (names : Names) (old new : String) :
    Confined (MoveKey names.rows old new) names.rows (names.rename old new).2.rows :=
  (names.confined_renameWith old new none []).mono fun _ hkey =>
    hkey.resolve_right fun ⟨_, hchange, _⟩ => List.not_mem_nil hchange

/-- Unbinding a name changes its name row at most. -/
theorem confined_unbind (names : Names) (name : String) :
    Confined (· = Layout.nameKey name) names.rows (names.unbind name).2.rows :=
  fun _ hkey => Rows.get?_erase_of_ne names.rows fun heq => hkey heq.symm

end Names

namespace Catalog

/-- A put writes the books and one entity row, that of the key to which its address resolves. -/
theorem confined_put (catalog : Catalog) (address : Address) (payload : Bytes) (overwrite : Bool) :
    Confined (fun other => Layout.IsBook other ∨
        ∃ key, (address.resolveKey catalog.names).1 = .ok key ∧ other = key.encode)
      catalog.rows (catalog.put address payload overwrite).2.rows := by
  cases hsingle : single address.path with
  | error fault =>
    rw [put, hsingle]
    exact .refl _ _
  | ok =>
    have hbound := (address.grows_resolveKey catalog.names).confined
    cases hresolve : (address.resolveKey catalog.names).1 with
    | error fault =>
      rw [put_of_unresolved catalog payload overwrite hsingle hresolve]
      exact hbound.mono fun _ => Or.inl
    | ok key =>
      rw [put_of_resolved catalog payload overwrite hsingle hresolve]
      generalize hresolved : ({ catalog with names := (address.resolveKey catalog.names).2 } :
        Catalog) = resolved
      have hnames : Confined Layout.IsBook catalog.rows resolved.rows := by
        rw [← hresolved]
        exact hbound
      intro other hother
      obtain ⟨hbook, hkey⟩ := not_or.mp hother
      have hne : key.encode ≠ other := fun heq => hkey ⟨key, rfl, heq.symm⟩
      rcases storeWith_cases resolved address key payload overwrite with
        ⟨version, -, hwrote⟩ | ⟨fault, -, hrows, -⟩
      · rw [hwrote.rows other hbook, Rows.get?_insert_of_ne _ _ hne]
        exact hnames other hbook
      · rw [hrows]
        exact hnames other hbook

/-- A removal writes entity rows alone. -/
theorem confined_delete (catalog : Catalog) (address : Address) (cascade : Bool) :
    Confined Layout.IsEntity catalog.rows (catalog.delete address cascade).2.rows := by
  rcases delete_inv catalog address cascade with ⟨-, hglanced⟩ | ⟨ids, hfind, -, -, hafter⟩
  · exact hglanced.rows ▸ .refl _ _
  · intro other hother
    rw [hafter]
    change (catalog.rows.batch (removal _ address.kind)).2.get? other = _
    rw [get?_batch_removal, if_neg]
    rintro (rfl | ⟨lower, hlower, hstem⟩)
    · exact hother ((Address.shaped_of_findKey hfind).isEntity (List.prefix_refl _))
    · exact hother (Layout.isEntity_of_stemBeneath hlower hstem)

/-! ## Updates -/

/-- The keys under which an update may write that has planned a move or none. -/
def RevisedKey (rows : Rows) (key : Key) (move : Option Move) (other : Bytes) : Prop :=
  other = key.encode ∨ ∃ moved, move = some moved ∧ Names.MoveKey rows moved.old moved.new other

/-- A commit writes the row of the entity and, with a move, the rows of that. -/
theorem confined_commitUpdate (catalog : Catalog) (address : Address) (key : Key) (record : Record)
    (move : Option Move) :
    Confined (RevisedKey catalog.rows key move) catalog.rows
      (catalog.commitUpdate address key.encode record move).2.rows := by
  cases move with
  | none => exact (Confined.insert key.encode record.encode catalog.rows).mono fun _ => Or.inl
  | some move =>
    rw [rows_commitUpdate_move]
    refine (catalog.names.confined_renameWith move.old move.new move.replaced _).mono ?_
    rintro other (hmove | ⟨change, hchange, htouch⟩)
    · exact Or.inr ⟨move, rfl, hmove⟩
    · rw [List.mem_singleton.mp hchange] at htouch
      exact Or.inl htouch.symm

/-- What is left of an update once its entity is loaded writes no more than the commit of the move that
it plans. -/
theorem confined_reviseWith (catalog : Catalog) (address : Address) (key : Key) (update : Update) :
    Confined (fun other => ∃ move, (catalog.planUpdate address update).1 = .ok move ∧
        RevisedKey catalog.rows key move other)
      catalog.rows (catalog.reviseWith address key.encode update).2.rows := by
  have hplanned := (planUpdate_glanced catalog address update).rows
  rw [reviseWith]
  cases hplan : catalog.planUpdate address update with
  | mk answer planned =>
    rw [hplan] at hplanned
    have hsame : planned.rows = catalog.rows := hplanned
    cases answer with
    | error fault => exact hsame ▸ .refl _ _
    | ok move =>
      have hnext := rows_nextVersion planned
      dsimp only
      rw [rewriteWith]
      cases hdraw : planned.nextVersion with
      | mk drawn next =>
        rw [hdraw] at hnext
        have hdrawn : next.rows = catalog.rows := Eq.trans hnext hsame
        cases drawn with
        | error fault => exact hdrawn ▸ .refl _ _
        | ok version =>
          have hcommit := next.confined_commitUpdate address key ⟨version, update.payload⟩ move
          rw [hdrawn] at hcommit
          exact hcommit.mono fun _ hother => ⟨move, rfl, hother⟩

/-- The keys under which an update may write: that of the entity that it loads, and if it plans a move,
those of the two names and of the id that moves. -/
def UpdateKey (catalog : Catalog) (address : Address) (change : Record → Except Error Update)
    (other : Bytes) : Prop :=
  ∃ key record update move, (address.findKey catalog.names).1 = .ok (some key) ∧
    (catalog.load address).1 = .ok (some (key.encode, record)) ∧ change record = .ok update ∧
    ((catalog.load address).2.planUpdate address update).1 = .ok move ∧
    RevisedKey catalog.rows key move other

/-- An update writes the row of its entity and, with a move, the rows of the two names and the id. -/
theorem confined_update (catalog : Catalog) (address : Address)
    (change : Record → Except Error Update) :
    Confined (catalog.UpdateKey address change) catalog.rows
      (catalog.update address change).2.rows := by
  rw [update]
  cases hsingle : single address.path with
  | error fault => exact .refl _ _
  | ok =>
    have hsame := (load_glanced catalog address).rows
    dsimp only
    cases hload : catalog.load address with
    | mk answer loaded =>
      rw [hload] at hsame
      have hrows : loaded.rows = catalog.rows := hsame
      have hloaded : Confined (catalog.UpdateKey address change) catalog.rows loaded.rows :=
        hrows ▸ .refl _ _
      rcases answer with fault | _ | ⟨bytes, current⟩
      · exact hloaded
      · exact hloaded
      · obtain ⟨key, hfind, rfl⟩ := findKey_of_load (congrArg Prod.fst hload)
        dsimp only
        cases hchange : change current with
        | error fault => exact hloaded
        | ok update =>
          refine hloaded.trans ?_
          refine (confined_reviseWith loaded address key update).mono fun other => ?_
          rintro ⟨move, hplan, hother⟩
          rw [hrows] at hother
          exact ⟨key, current, update, move, hfind, by rw [hload], hchange,
            by rw [hload]; exact hplan, hother⟩

end Catalog

/-! ## The names of a move -/

namespace Address

/-- Finding names in turn goes on where finding the first of them has led. -/
theorem findSteps_append (first second : List (Kind × String)) (above : List UInt64)
    (names : Names) :
    findSteps (first ++ second) above names =
      match findSteps first above names with
      | (.ok (some ids), names) => findSteps second ids names
      | (.ok none, names) => (.ok none, names)
      | (.error fault, names) => (.error fault, names) := by
  induction first generalizing above names with
  | nil => rfl
  | cons step rest ih =>
    obtain ⟨kind, name⟩ := step
    rw [List.cons_append, findSteps, findSteps]
    cases names.find? (scopedName above kind name) with
    | mk answer after =>
      rcases answer with fault | _ | id
      · rfl
      · rfl
      · exact ih (above ++ [id]) after

/-- A scoped name that is found scopes the name of one entity by the ids of its levels. -/
theorem scoped_of_findName {address : Address} {names : Names} {full : String}
    (h : (address.findName names).1 = .ok (some full)) :
    address.Single ∧ ∃ above,
      (findSteps (address.levelSteps address.kinds) [] names).1 = .ok (some above) ∧
        full = scopedName above address.kind address.path.leaf := by
  rw [findName] at h
  split at h
  · exact absurd h (by simp)
  · rename_i kinds hlevels
    obtain rfl := kinds_of_levels hlevels
    split at h
    · exact absurd h (by simp)
    · rename_i hwildcard
      split at h
      · rename_i above _ hsteps
        refine ⟨⟨hlevels, Bool.eq_false_iff.mpr hwildcard⟩, above, congrArg Prod.fst hsteps, ?_⟩
        exact (Option.some.inj (Except.ok.inj h)).symm
      · exact absurd h (by simp)
      · exact absurd h (by simp)

/-- The key of one entity ends in the id that is stored for its scoped name. -/
theorem storedId?_of_findKey {address : Address} {names : Names} (h : names.Faithful)
    (hsingle : address.Single) {key : Key} {above : List UInt64}
    (hkey : (address.findKey names).1 = .ok (some key))
    (habove : (findSteps (address.levelSteps address.kinds) [] names).1 = .ok (some above)) :
    ∃ id, key.ids = above ++ [id] ∧
      Names.storedId? names.rows (scopedName above address.kind address.path.leaf) =
        .ok (some id) := by
  have hkept := (findSteps_glimpse (address.levelSteps address.kinds) [] (.refl h)).kept
  rw [findKey, hsingle.levels] at hkey
  dsimp only at hkey
  rw [hsingle.steps_eq_line, line, findSteps_append] at hkey
  cases hfirst : findSteps (address.levelSteps address.kinds) [] names with
  | mk answer found =>
    rw [hfirst] at hkey hkept habove
    obtain rfl : answer = .ok (some above) := habove
    have hanswer := (Names.find?_transparent hkept.faithful'
      (scopedName above address.kind address.path.leaf)).answer
    dsimp only at hkey
    rw [findSteps] at hkey
    cases hlast : found.find? (scopedName above address.kind address.path.leaf) with
    | mk answer last =>
      rw [hlast] at hkey hanswer
      rcases answer with fault | _ | id
      · exact absurd hkey (by simp)
      · exact absurd hkey (by simp)
      · obtain rfl := Option.some.inj (Except.ok.inj hkey)
        refine ⟨id, rfl, ?_⟩
        rw [hkept.rows]
        exact hanswer.symm

end Address

namespace Catalog

/-- The names between which a move is planned are those that are found for the two addresses, one after
the other. -/
theorem names_of_moveBetween {catalog : Catalog} {address target : Address} {move : Move}
    (h : (catalog.moveBetween address target).1 = .ok move) :
    (address.findName catalog.names).1 = .ok (some move.old) ∧
      (target.findName (address.findName catalog.names).2).1 = .ok (some move.new) := by
  simp only [moveBetween, onNames] at h
  cases hold : address.findName catalog.names with
  | mk old first =>
    rw [hold] at h
    cases old with
    | error fault => exact absurd h (by simp)
    | ok old =>
      dsimp only at h
      cases hnew : target.findName first with
      | mk new second =>
        rw [hnew] at h
        cases new with
        | error fault => exact absurd h (by simp)
        | ok new =>
          rcases old with _ | old
          · exact absurd h (by simp)
          rcases new with _ | new
          · exact absurd h (by simp)
          dsimp only at h
          split at h
          · exact absurd h (by simp)
          · obtain rfl := Except.ok.inj h
            exact ⟨rfl, rfl⟩

/-- A move is planned by looking at the new address and then for the names of both. -/
theorem moveBetween_of_planMove {catalog : Catalog} {address : Address} {name : String} {move : Move}
    (h : (catalog.planMove address name).1 = .ok move) :
    let target : Address := ⟨address.path.withName name, address.kind⟩
    ((catalog.contains target).2.moveBetween address target).1 = .ok move := by
  intro target
  rw [planMove] at h
  dsimp only at h
  split at h
  · exact absurd h (by simp)
  · split at h
    · exact absurd h (by simp)
    · exact absurd h (by simp)
    · rename_i heq
      rw [show catalog.contains target = _ from heq]
      exact h

/-- An update that is to move something has a new name, and plans the move to it. -/
theorem planMove_of_planUpdate {catalog : Catalog} {address : Address} {update : Update} {move : Move}
    (h : (catalog.planUpdate address update).1 = .ok (some move)) :
    ∃ name, update.newName = some name ∧ name ≠ address.path.leaf ∧
      (catalog.planMove address name).1 = .ok move := by
  rw [planUpdate] at h
  split at h
  · exact absurd h (by simp)
  · rename_i name hname
    split at h
    · exact absurd h (by simp)
    · rename_i hne
      refine ⟨name, hname, hne, ?_⟩
      cases hplan : catalog.planMove address name with
      | mk answer after =>
        rw [hplan] at h
        cases answer with
        | error fault => exact absurd h (by simp [Except.map])
        | ok planned => rw [Option.some.inj (Except.ok.inj h)]

/-- What a planned move is about: a new name that is asked for, and the two names, each in a scope. With
a faithful cache both are in the scope of the ids above the entity. -/
theorem scopes_of_planUpdate {catalog : Catalog} {address : Address} {update : Update} {move : Move}
    (h : (catalog.planUpdate address update).1 = .ok (some move)) :
    ∃ name, update.newName = some name ∧ name ≠ address.path.leaf ∧ address.Single ∧
      ∃ above above', move.old = scopedName above address.kind address.path.leaf ∧
        move.new = scopedName above' address.kind name ∧
        (catalog.names.Faithful → above' = above ∧
          (Address.findSteps (address.levelSteps address.kinds) [] catalog.names).1 =
            .ok (some above)) := by
  obtain ⟨name, hname, hne, hplan⟩ := planMove_of_planUpdate h
  obtain ⟨hold, hnew⟩ := names_of_moveBetween (moveBetween_of_planMove hplan)
  obtain ⟨hsingle, above, habove, hold⟩ := Address.scoped_of_findName hold
  obtain ⟨-, above', habove', hnew⟩ := Address.scoped_of_findName hnew
  refine ⟨name, hname, hne, hsingle, above, above', hold, hnew, fun hfaithful => ?_⟩
  -- Looking at the new address and finding the old name leave a twin, which finds the same ids.
  have hlooked :=
    ((Twins.refl hfaithful).contains ⟨address.path.withName name, address.kind⟩).kept.names
  have hfound := (address.findName_glimpse (.refl hlooked.faithful')).kept
  have hfirst := (Address.findSteps_glimpse (address.levelSteps address.kinds) [] hlooked).answer
  have hsecond := (Address.findSteps_glimpse (address.levelSteps address.kinds) [] hfound).answer
  have hsame := (habove.symm.trans hsecond).trans habove'
  exact ⟨(Option.some.inj (Except.ok.inj hsame)).symm, hfirst.trans habove⟩

/-- A move that goes with an update moves a binding from the name at the address to the new name that is
asked for. With a faithful cache both are in the scope of the ids above the entity, and its own id is the
one that moves. -/
theorem move_of_planUpdate {catalog : Catalog} {address : Address} {key : Key} {record : Record}
    {update : Update} {move : Move}
    (hload : (catalog.load address).1 = .ok (some (key.encode, record)))
    (hplan : ((catalog.load address).2.planUpdate address update).1 = .ok (some move)) :
    ∃ name above above', update.newName = some name ∧ name ≠ address.path.leaf ∧
      move.old = scopedName above address.kind address.path.leaf ∧
      move.new = scopedName above' address.kind name ∧
      (catalog.names.Faithful → above' = above ∧ ∃ id, key.ids = above ++ [id] ∧
        Names.storedId? catalog.rows move.old = .ok (some id)) := by
  obtain ⟨name, hname, hne, hsingle, above, above', hold, hnew, hscopes⟩ := scopes_of_planUpdate hplan
  refine ⟨name, above, above', hname, hne, hold, hnew, fun hfaithful => ?_⟩
  have hloaded := ((Twins.refl hfaithful).load address).kept.names
  obtain ⟨hsame, habove⟩ := hscopes hloaded.faithful'
  obtain ⟨found, hfind, hkey⟩ := findKey_of_load hload
  obtain rfl := Key.encode_injective hkey
  have hsteps := (Address.findSteps_glimpse (address.levelSteps address.kinds) [] hloaded).answer
  obtain ⟨id, hids, hstored⟩ :=
    Address.storedId?_of_findKey hfaithful hsingle hfind (hsteps.trans habove)
  exact ⟨hsame, id, hids, hold ▸ hstored⟩

end Catalog

end EntityCatalog
