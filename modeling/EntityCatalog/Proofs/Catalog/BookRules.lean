import EntityCatalog.Proofs.Address.Rooted
import EntityCatalog.Proofs.Address.Scoped
import EntityCatalog.Proofs.Catalog.Footprint

/-!
# What a catalog makes of the books

Whatever is asked of a catalog, it writes to the books in two ways only. Resolving a path binds concrete
names to fresh ids, each in the scope of ids that have rows, and an update moves a name to a concrete one
in the same scope. A property of rows that both keep up, and that depends on the books alone, is a rule,
and no operation breaks a rule. Two rules are that the id rows hold concrete names in scopes, and that the
rows are rooted.
-/

namespace EntityCatalog

open Names (Reserved SameBooks)

/-- A property of rows that depends on the books alone and is kept up by what a catalog writes there. -/
structure BookRule (rule : Rows → Prop) : Prop where
  sameBooks : ∀ {rows rows' : Rows}, SameBooks rows rows' → rule rows → rule rows'
  binding : ∀ {rows : Rows} {above : List UInt64} {kind : Kind} {name : String} {id : UInt64},
    (∀ upper ∈ above, Reserved rows upper) → Address.isConcrete name = true →
    rows.get? (Layout.nameKey (scopedName above kind name)) = none →
    rows.get? (Layout.idKey id) = none →
    rule rows → rule (Names.withBinding rows (scopedName above kind name) id)
  move : ∀ {rows rows' : Rows} {above : List UInt64} {kind : Kind} {old new : String} {id : UInt64},
    (∀ upper ∈ above, Reserved rows upper) → Address.isConcrete new = true →
    Names.Moved rows rows' (scopedName above kind old) (scopedName above kind new) id →
    rule rows → rule rows'

/-- The row of an entity is in no book. -/
theorem Names.SameBooks.insert_encode (rows : Rows) (key : Key) (bytes : Bytes) :
    SameBooks rows (rows.insert key.encode bytes) :=
  fun _ hbook => Rows.get?_insert_of_ne rows bytes fun heq =>
    Layout.not_isBook_encode key (heq ▸ hbook)

/-- A change that puts the row of an entity touches no book. -/
theorem SparesBooks.put_encode (key : Key) (bytes : Bytes) : SparesBooks [.put key.encode bytes] := by
  intro change hchange other hbook htouch
  rw [List.mem_singleton.mp hchange] at htouch
  have hkey : key.encode = other := htouch
  exact Layout.not_isBook_encode key (hkey ▸ hbook)

namespace Catalog

/-- Storing a record leaves the books alone. -/
theorem storeWith_sameBooks (catalog : Catalog) (address : Address) (key : Key) (payload : Bytes)
    (overwrite : Bool) :
    SameBooks catalog.rows (catalog.storeWith address key.encode payload overwrite).2.rows := by
  have hrows := rows_nextVersion catalog
  rw [storeWith]
  cases hversion : catalog.nextVersion with
  | mk drawn next =>
    rw [hversion] at hrows
    rw [← hrows]
    cases drawn with
    | error fault => exact .refl _
    | ok version =>
      dsimp only
      rcases store_cases next address key ⟨version, payload⟩ overwrite with
        ⟨-, hafter⟩ | ⟨-, hafter, -⟩
      · rw [hafter]
        exact .insert_encode _ key _
      · rw [hafter]
        exact .refl _

/-- A removal leaves the books alone. -/
theorem delete_sameBooks (catalog : Catalog) (address : Address) (cascade : Bool) :
    SameBooks catalog.rows (catalog.delete address cascade).2.rows :=
  fun _ hbook => catalog.confined_delete address cascade _ fun hentity =>
    Layout.not_isBook_of_isEntity hentity hbook

end Catalog

namespace BookRule

variable {rule : Rows → Prop} {catalog : Catalog}

/-- Resolving concrete names keeps a rule up. -/
theorem resolveSteps (h : BookRule rule) {names : Names} (hfaithful : names.Faithful)
    (hrows : Names.Consistent names.rows) {steps : List (Kind × String)} {above : List UInt64}
    (hsteps : ∀ step ∈ steps, Address.isConcrete step.2 = true)
    (habove : ∀ upper ∈ above, Reserved names.rows upper) (hrule : rule names.rows) :
    rule (Address.resolveSteps steps above names).2.rows := by
  induction steps generalizing above names with
  | nil => exact hrule
  | cons step rest ih =>
    obtain ⟨kind, name⟩ := step
    obtain ⟨hname, hrest⟩ := List.forall_mem_cons.mp hsteps
    have hresolved : rule (names.resolve (scopedName above kind name)).2.rows := by
      rcases Names.resolve_rows hfaithful hrows (scopedName above kind name) with
        hsame | ⟨id, hfree, hid, hbinding⟩
      · rw [hsame]
        exact hrule
      · rw [hbinding]
        exact h.binding habove hname hfree hid hrule
    obtain ⟨hgrows, hbound⟩ := Names.resolve_grows hfaithful hrows (scopedName above kind name)
    have hafter := (Names.resolve_transparent hfaithful (scopedName above kind name)).faithful
    rw [Address.resolveSteps]
    cases hresolve : names.resolve (scopedName above kind name) with
    | mk answer after =>
      rw [hresolve] at hresolved hgrows hbound hafter
      cases answer with
      | error fault => exact hresolved
      | ok id =>
        have hconsistent := hgrows.consistent hrows
        refine ih hafter hconsistent hrest (List.forall_mem_append.mpr ⟨fun upper hupper => ?_, ?_⟩)
          hresolved
        · exact hgrows.reserved (habove upper hupper)
        · exact List.forall_mem_singleton.mpr (hconsistent.reserved (hbound id rfl))

/-- Resolving the key of an address keeps a rule up. -/
theorem resolveKey (h : BookRule rule) {names : Names} (hfaithful : names.Faithful)
    (hrows : Names.Consistent names.rows) (address : Address) (hrule : rule names.rows) :
    rule (address.resolveKey names).2.rows := by
  cases hlevels : address.levels with
  | error fault =>
    rw [Address.resolveKey_of_error names hlevels]
    exact hrule
  | ok kinds =>
    obtain rfl := Address.kinds_of_levels hlevels
    have hresolved := h.resolveSteps hfaithful hrows
      (fun _ hstep => (Address.fitting_of_levels hlevels).isConcrete_of_mem_steps hstep)
      (List.forall_mem_nil _) hrule
    simp only [Address.resolveKey, hlevels]
    cases hresolve : Address.resolveSteps (address.steps address.kinds) [] names with
    | mk answer after =>
      rw [hresolve] at hresolved
      cases answer with
      | error fault => exact hresolved
      | ok ids => exact hresolved

/-- A rename within a scope keeps a rule up. -/
theorem renameWith (h : BookRule rule) {names : Names} (hfaithful : names.Faithful)
    (hrows : Names.Consistent names.rows) {above : List UInt64}
    (habove : ∀ upper ∈ above, Reserved names.rows upper) (kind : Kind) (old : String) {new : String}
    (hnew : Address.isConcrete new = true) (replaced : Option UInt64) {along : List Change}
    (halong : SparesBooks along) (hrule : rule names.rows) :
    rule (names.renameWith (scopedName above kind old) (scopedName above kind new) replaced
      along).2.rows := by
  rcases names.renameWith_cases (scopedName above kind old) (scopedName above kind new) replaced
    along with ⟨hmade, -⟩ | ⟨-, hsame⟩
  · rcases Names.renameWith_made hfaithful hrows halong hmade with
      ⟨-, hbooks⟩ | ⟨mid, id, hmid, -, hmoved⟩
    · exact h.sameBooks hbooks hrule
    · -- The move starts where the changes that come along have led, which is in the same books.
      have hstill : ∀ upper ∈ above, Reserved mid upper := fun upper hupper =>
        (Names.Posted.nothing hmid).reserved (habove upper hupper)
      exact h.move hstill hnew hmoved (h.sameBooks hmid hrule)
  · rw [hsame]
    exact hrule

/-- A put keeps a rule of the books. -/
theorem put (h : BookRule rule) (hsound : catalog.Sound) (address : Address) (payload : Bytes)
    (overwrite : Bool) (hrule : rule catalog.rows) :
    rule (catalog.put address payload overwrite).2.rows := by
  have hresolved := h.resolveKey hsound.faithful hsound.kept.consistent address hrule
  cases hsingle : Catalog.single address.path with
  | error fault =>
    rw [Catalog.put, hsingle]
    exact hrule
  | ok =>
    cases hresolve : (address.resolveKey catalog.names).1 with
    | error fault =>
      rw [Catalog.put_of_unresolved catalog payload overwrite hsingle hresolve]
      exact hresolved
    | ok key =>
      rw [Catalog.put_of_resolved catalog payload overwrite hsingle hresolve]
      exact h.sameBooks (Catalog.storeWith_sameBooks _ address key payload overwrite) hresolved

/-- A move that was planned is to a concrete name in the same scope, so writing it keeps a rule up. -/
theorem rewriteWith (h : BookRule rule) (hsound : catalog.Sound) (address : Address) (key : Key)
    (payload : Bytes) {move : Option Move} (hmove : ∀ planned, move = some planned →
      ∃ above kind old new, planned.old = scopedName above kind old ∧
        planned.new = scopedName above kind new ∧ Address.isConcrete new = true ∧
        ∀ upper ∈ above, Reserved catalog.rows upper)
    (hrule : rule catalog.rows) :
    rule (catalog.rewriteWith address key.encode payload move).2.rows := by
  have hnext := hsound.nextVersion
  have hrows := Catalog.rows_nextVersion catalog
  rw [← hrows] at hrule hmove
  rw [Catalog.rewriteWith]
  cases hversion : catalog.nextVersion with
  | mk drawn next =>
    rw [hversion] at hnext hrule hmove
    cases drawn with
    | error fault => exact hrule
    | ok version =>
      cases move with
      | none => exact h.sameBooks (.insert_encode _ key _) hrule
      | some planned =>
        obtain ⟨above, kind, old, new, hold, hnew, hconcrete, habove⟩ := hmove planned rfl
        dsimp only
        rw [Catalog.rows_commitUpdate_move, hold, hnew]
        exact h.renameWith hnext.faithful hnext.kept.consistent habove kind old hconcrete
          planned.replaced (.put_encode key _) hrule

/-- A rename is planned to a concrete name in the scope of the entity. -/
theorem reviseWith (h : BookRule rule) (hsound : catalog.Sound) {address : Address} {key : Key}
    (hkey : address.storedKey? catalog.rows = some key) (hconcrete : key.wildcard = false)
    (update : Update) (hrule : rule catalog.rows) :
    rule (catalog.reviseWith address key.encode update).2.rows := by
  rw [Catalog.reviseWith]
  by_cases hkept : update.newName = none ∨ update.newName = some address.path.leaf
  · rw [Catalog.planUpdate_of_kept catalog hkept]
    exact h.rewriteWith hsound address key update.payload (fun _ hmove => absurd hmove (by simp)) hrule
  · obtain ⟨hsome, hother⟩ := not_or.mp hkept
    obtain ⟨name, hname⟩ := Option.ne_none_iff_exists'.mp hsome
    have hne : name ≠ address.path.leaf := fun heq => hother (hname.trans (congrArg some heq))
    have hsingle := Address.single_of_storedKey? hkey hconcrete
    obtain ⟨above, -, habove, -⟩ := Address.exists_bound hsingle hkey
    have hreserved := Address.reserved_of_trail? hsound.kept.consistent
      (List.forall_mem_nil _) habove
    obtain ⟨hlooked, hplanned⟩ := Catalog.planMove_eq hsound hsingle habove name
    rw [Catalog.planUpdate_of_renamed catalog hname hne]
    cases hplan : catalog.planMove address name with
    | mk answer after =>
      rw [hplan] at hlooked hplanned
      have hafter := hlooked.sound hsound
      rw [← hlooked.rows] at hrule hreserved
      cases answer with
      | error fault => exact hrule
      | ok move =>
        refine h.rewriteWith hafter address key update.payload (fun planned hmove => ?_) hrule
        obtain rfl := Option.some.inj hmove
        by_cases hfree : Address.isConcrete name = true ∧
            catalog.contents (address.renamed name) = none ∧
            ¬ Contents.Populated catalog.contents (address.renamed name)
        · obtain rfl := Except.ok.inj (hplanned.free hfree.1 hfree.2.1 hfree.2.2)
          exact ⟨above, address.kind, address.path.leaf, name, rfl, rfl, hfree.1, hreserved⟩
        · obtain ⟨fault, hfault⟩ := hplanned.error_of_not_free hfree
          exact absurd hfault (by simp)

/-- An update keeps a rule of the books. -/
theorem update (h : BookRule rule) (hsound : catalog.Sound) (address : Address)
    (change : Record → Except Error Update) (hrule : rule catalog.rows) :
    rule (catalog.update address change).2.rows := by
  cases hrecord : catalog.contents address with
  | none =>
    cases hchecked : address.checked with
    | error fault =>
      rw [Catalog.update_of_error catalog change hchecked]
      exact hrule
    | ok =>
      have hsingle := (address.checked_eq_ok_iff).mp hchecked
      rw [(Catalog.update_of_none hsound change hsingle hrecord).2.rows]
      exact hrule
  | some current =>
    obtain ⟨key, after, hlooked, hkey, hconcrete, hupdate⟩ :=
      Catalog.update_of_some hsound change hrecord
    have hafter := hlooked.sound hsound
    rw [← hlooked.rows] at hrule
    rw [hupdate]
    cases change current with
    | error fault => exact hrule
    | ok update => exact h.reviseWith hafter hkey hconcrete update hrule

/-- Whatever is asked of a catalog about an entity, it keeps a rule up. -/
theorem perform (h : BookRule rule) (hsound : catalog.Sound) (operation : Operation)
    (hrule : rule catalog.rows) : rule (operation.perform catalog).2.rows := by
  cases operation with
  | get address =>
    have hrows : (catalog.get address).2.rows = catalog.rows := (Catalog.get_glanced catalog address).rows
    exact hrows.symm ▸ hrule
  | contains address =>
    have hrows : (catalog.contains address).2.rows = catalog.rows :=
      (Catalog.contains_glanced catalog address).rows
    exact hrows.symm ▸ hrule
  | put address payload overwrite => exact h.put hsound address payload.bytes overwrite hrule
  | update address revision => exact h.update hsound address revision.change hrule
  | delete address cascade =>
    exact h.sameBooks (catalog.delete_sameBooks address cascade) hrule

end BookRule

/-- That the id rows hold concrete names in scopes is a rule. -/
theorem Scoped.bookRule : BookRule Scoped where
  sameBooks hsame h := h.congr fun id => hsame _ (Layout.isBook_idKey id)
  binding _ hname _ _ h := h.withBinding _ _ hname _
  move _ hname hmoved h := h.of_idRows fun id => by
    rw [hmoved]
    split
    · exact Or.inr ⟨_, rfl, _, _, _, hname, rfl⟩
    · rw [if_neg (Layout.nameKey_ne_idKey _ id), if_neg (Layout.nameKey_ne_idKey _ id)]
      exact Or.inl rfl

/-- That the rows are rooted is a rule. -/
theorem Rooted.bookRule : BookRule Rooted where
  sameBooks hsame h := h.sameBooks hsame
  binding habove _ hname hid h := h.withBinding habove hname hid
  move habove _ hmoved h := h.move habove hmoved

end EntityCatalog
