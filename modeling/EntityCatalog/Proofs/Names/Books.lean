import EntityCatalog.Proofs.Bytes.Order
import EntityCatalog.Proofs.Names.Move
import EntityCatalog.Proofs.Names.Transparency
import EntityCatalog.Proofs.Rows.Scan
import Mathlib.Tactic.Choose

/-!
# The books of a registry

The books are the name rows and the id rows. One request posts at most one thing to them: it binds a
free name to a free id, moves an id from one name to another, or removes the name row of a name. All
that the books keep to follows from these cases, as long as the changes that come along with a
request leave the books alone.

Books that are in order list every bound name once, in the byte order of the names.
-/

namespace EntityCatalog

namespace Layout

/-- Whether a key belongs to the books: it extends the stem of the name rows or of the id rows. -/
def IsBook (key : Bytes) : Prop := nameStem <+: key ∨ idStem <+: key

/-- The key of a name belongs to the books. -/
theorem isBook_nameKey (name : String) : IsBook (nameKey name) := Or.inl (List.prefix_append _ _)

/-- The key of an id belongs to the books. -/
theorem isBook_idKey (id : UInt64) : IsBook (idKey id) := Or.inr (List.prefix_append _ _)

/-- The key of an id row does not extend the stem of the name rows. -/
theorem not_nameStem_prefix_idKey (id : UInt64) : ¬ nameStem <+: idKey id := by
  simp [nameStem, idKey, idStem]

/-- The third byte of a key of the books is no separator. -/
theorem getElem?_of_isBook {key : Bytes} (h : IsBook key) :
    ∃ b, key[Key.codeWidth]? = some b ∧ b ≠ Key.separator := by
  rcases h with ⟨rest, rfl⟩ | ⟨rest, rfl⟩
  · exact ⟨0x6d, rfl, by decide⟩
  · exact ⟨0x5f, rfl, by decide⟩

/-- The key of an entity belongs to no book. -/
theorem not_isBook_of_isEntity {key : Bytes} (h : IsEntity key) : ¬ IsBook key := by
  intro hbook
  obtain ⟨b, hb, hne⟩ := getElem?_of_isBook hbook
  rw [getElem?_of_isEntity h] at hb
  exact hne (Option.some.inj hb).symm

/-- The key of an entity belongs to no book. -/
theorem not_isBook_encode (key : Key) : ¬ IsBook key.encode := by
  intro hbook
  obtain ⟨b, hb, hne⟩ := getElem?_of_isBook hbook
  exact encode_ne_of_getElem? key hb hne rfl

/-- The key of the mark belongs to no book. -/
theorem not_isBook_markKey : ¬ IsBook markKey := by
  simp [IsBook, nameStem, idStem, markKey]

end Layout

/-- Changes that touch no row of the books. -/
def SparesBooks (changes : List Change) : Prop :=
  ∀ change ∈ changes, ∀ key, Layout.IsBook key → ¬ change.Touches key

/-- Changes that leave the books alone leave the names alone. -/
theorem SparesBooks.sparesNames {changes : List Change} (h : SparesBooks changes) :
    SparesNames changes :=
  fun change hchange name => h change hchange _ (Layout.isBook_nameKey name)

namespace Names

/-- Whether the changes that come with a request leave the books alone. -/
def Request.SparesBooks : Request → Prop
  | renameWith _ _ _ along => EntityCatalog.SparesBooks along
  | write changes => EntityCatalog.SparesBooks changes
  | _ => True

/-- A request whose changes leave the books alone has changes that leave the names alone. -/
theorem Request.SparesBooks.sparesNames {request : Request} (h : request.SparesBooks) :
    request.SparesNames := by
  cases request with
  | renameWith => exact EntityCatalog.SparesBooks.sparesNames h
  | write => exact EntityCatalog.SparesBooks.sparesNames h
  | _ => trivial

/-- The second rows have the books of the first. -/
def SameBooks (rows rows' : Rows) : Prop := ∀ key, Layout.IsBook key → rows'.get? key = rows.get? key

/-- The books are the same while the rows are. -/
theorem SameBooks.refl (rows : Rows) : SameBooks rows rows := fun _ _ => rfl

/-- Changes that were made and leave the books alone keep them the same. -/
theorem SameBooks.of_batch? {changes : List Change} {rows rows' : Rows}
    (hbatch : Rows.batch? changes rows = some rows') (hspare : SparesBooks changes) :
    SameBooks rows rows' :=
  fun key hkey => Rows.get?_of_batch? hbatch fun change hchange => hspare change hchange key hkey

/-- A batch that leaves the books alone keeps them the same, whether or not it is applied. -/
theorem SameBooks.batch {changes : List Change} (rows : Rows) (hspare : SparesBooks changes) :
    SameBooks rows (rows.batch changes).2 :=
  fun key hkey =>
    Rows.get?_batch_of_not_touches rows fun change hchange => hspare change hchange key hkey

/-- The same books are consistent together. -/
theorem SameBooks.consistent {rows rows' : Rows} (h : SameBooks rows rows')
    (hrows : Consistent rows) : Consistent rows' :=
  hrows.congr (fun name => h _ (Layout.isBook_nameKey name)) fun id => h _ (Layout.isBook_idKey id)

/-! ## What a request posts -/

/-- What one request makes of the books. -/
inductive Posted (rows : Rows) : Rows → Prop where
  | nothing {rows' : Rows} (h : SameBooks rows rows') : Posted rows rows'
  | binding (name : String) (id : UInt64) (hname : rows.get? (Layout.nameKey name) = none)
      (hid : rows.get? (Layout.idKey id) = none) : Posted rows (withBinding rows name id)
  | move {mid rows' : Rows} (old new : String) (id : UInt64) (hmid : SameBooks rows mid)
      (hold : boundId? rows old = some id) (h : Moved mid rows' old new id) : Posted rows rows'
  | removal (name : String) : Posted rows (rows.erase (Layout.nameKey name))

/-- Resolving a name leaves the rows, or binds the name to a free id. -/
theorem resolve_rows {names : Names} (h : names.Faithful) (hrows : Consistent names.rows)
    (name : String) :
    (names.resolve name).2.rows = names.rows ∨
      ∃ id, names.rows.get? (Layout.nameKey name) = none ∧
        names.rows.get? (Layout.idKey id) = none ∧
        (names.resolve name).2.rows = withBinding names.rows name id := by
  cases hbound : boundId? names.rows name with
  | some id => exact Or.inl (resolve_of_bound h hrows hbound).2.rows
  | none =>
    have hname := (hrows.boundId?_eq_none_iff name).mp hbound
    rcases resolve_of_free h hname with ⟨id, -, hid, hafter⟩ | ⟨-, hafter⟩
    · exact Or.inr ⟨id, hname, hid, hafter⟩
    · exact Or.inl hafter

/-- Resolving a name binds it at most. -/
theorem resolve_posted {names : Names} (h : names.Faithful) (hrows : Consistent names.rows)
    (name : String) : Posted names.rows (names.resolve name).2.rows := by
  rcases resolve_rows h hrows name with hsame | ⟨id, hname, hid, hafter⟩
  · rw [hsame]
    exact .nothing (.refl _)
  · rw [hafter]
    exact .binding name id hname hid

/-- A rename that is made applies the changes that go along and then changes the books alone. One
that is not made changes no row. -/
theorem renameWith_cases (names : Names) (old new : String) (replaced : Option UInt64)
    (along : List Change) :
    ((names.renameWith old new replaced along).1 = .ok true ∧
      ∃ mid, Rows.batch? along names.rows = some mid ∧ ∀ key, ¬ Layout.IsBook key →
        (names.renameWith old new replaced along).2.rows.get? key = mid.get? key) ∨
    (names.renameWith old new replaced along).1 ≠ .ok true ∧
      (names.renameWith old new replaced along).2.rows = names.rows := by
  rw [renameWith]
  split
  · exact Or.inr ⟨by simp, rfl⟩
  · exact Or.inr ⟨by simp, rfl⟩
  · rename_i id _
    split
    · exact Or.inr ⟨by simp, rfl⟩
    · rename_i changes hchanges
      rw [commitRename_eq]
      cases hbatch : Rows.batch? changes names.rows with
      | none => exact Or.inr ⟨by simp, rfl⟩
      | some rows =>
        refine Or.inl ⟨rfl, ?_⟩
        dsimp only
        rcases renameChanges_cases hchanges with rfl | ⟨bound, freed, hfreed, rfl⟩
        · exact ⟨rows, hbatch, fun _ _ => rfl⟩
        · rw [List.append_assoc, Rows.batch?_append] at hbatch
          obtain ⟨mid, hmid, hrest⟩ := Option.bind_eq_some_iff.mp hbatch
          refine ⟨mid, hmid, fun key hkey => Rows.get?_of_batch? hrest fun change hchange => ?_⟩
          have hname (name : String) : Layout.nameKey name ≠ key :=
            fun heq => hkey (heq ▸ Layout.isBook_nameKey name)
          rcases List.mem_append.mp hchange with hchange | hchange
          · rw [mem_freeChanges hfreed hchange]
            exact hname new
          · simp only [moveChanges, List.mem_cons, List.not_mem_nil, or_false] at hchange
            rcases hchange with rfl | rfl | rfl
            · exact hname old
            · exact hname new
            · exact fun heq => hkey (heq ▸ Layout.isBook_idKey id)

/-- What a rename that is made has done: nothing to the books when both names are the same, and
otherwise it has moved the id of the old name. -/
theorem renameWith_made {names : Names} (h : names.Faithful) (hrows : Consistent names.rows)
    {old new : String} {replaced : Option UInt64} {along : List Change} (halong : SparesBooks along)
    (hmade : (names.renameWith old new replaced along).1 = .ok true) :
    (old = new ∧ SameBooks names.rows (names.renameWith old new replaced along).2.rows) ∨
    ∃ mid id, SameBooks names.rows mid ∧ boundId? names.rows old = some id ∧
      Moved mid (names.renameWith old new replaced along).2.rows old new id := by
  cases hold : boundId? names.rows old with
  | none =>
    rw [renameWith_of_unbound hrows new replaced along hold] at hmade
    exact absurd hmade (by simp)
  | some id =>
    by_cases hsame : old = new
    · refine Or.inl ⟨hsame, ?_⟩
      rw [renameWith_of_bound hrows along hold (Or.inl hsame), rows_commitRename, renameBatch,
        if_pos hsame]
      exact .batch names.rows halong
    · by_cases hnew : ∀ taken, boundId? names.rows new = some taken → replaced = some taken
      · obtain ⟨mid, hmid, -⟩ :=
          ((names.renameWith_cases old new replaced along).resolve_right fun hnot => hnot.1 hmade).2
        exact Or.inr ⟨mid, id, .of_batch? hmid halong, rfl,
          (renameWith_moves h hrows hsame hold hnew halong.sparesNames hmid).2.1⟩
      · obtain ⟨taken, htaken⟩ := Classical.not_forall.mp hnew
        obtain ⟨hbound, hne⟩ := Classical.not_imp.mp htaken
        rw [renameWith_of_taken hrows along hsame hold hbound hne] at hmade
        exact absurd hmade (by simp)

/-- A rename moves one id at most. -/
theorem renameWith_posted {names : Names} (h : names.Faithful) (hrows : Consistent names.rows)
    (old new : String) (replaced : Option UInt64) {along : List Change}
    (halong : SparesBooks along) :
    Posted names.rows (names.renameWith old new replaced along).2.rows := by
  rcases names.renameWith_cases old new replaced along with ⟨hmade, -⟩ | ⟨-, hsame⟩
  · rcases renameWith_made h hrows halong hmade with ⟨-, hbooks⟩ | ⟨mid, id, hmid, hold, hmoved⟩
    · exact .nothing hbooks
    · exact .move old new id hmid hold hmoved
  · rw [hsame]
    exact .nothing (.refl _)

/-- One request posts at most one thing to the books. -/
theorem serve_posted {names : Names} (h : names.Faithful) (hrows : Consistent names.rows)
    {request : Request} (hspare : request.SparesBooks) :
    Posted names.rows (names.serve request).2.rows := by
  cases request with
  | resolve name => exact resolve_posted h hrows name
  | find name =>
    have hread : (names.serve (.find name)).2.rows = names.rows := (find?_read h name).rows
    rw [hread]
    exact .nothing (.refl _)
  | rename old new => exact renameWith_posted h hrows old new none (by simp [EntityCatalog.SparesBooks])
  | renameWith old new replaced along => exact renameWith_posted h hrows old new replaced hspare
  | unbind name => exact .removal name
  | storedName id => exact .nothing (.refl _)
  | highestId => exact .nothing (.refl _)
  | entries => exact .nothing (.refl _)
  | write changes => exact .nothing (.batch names.rows hspare)

/-! ## Books in order -/

/-- Books in order: they are consistent, and every key that extends the stem of the name rows is
that of a name. -/
structure InOrder (rows : Rows) : Prop where
  consistent : Consistent rows
  named : ∀ key bytes, Layout.nameStem <+: key → rows.get? key = some bytes →
    ∃ name, key = Layout.nameKey name

namespace InOrder

variable {rows rows' : Rows}

/-- Without rows the books are in order. -/
theorem empty : InOrder Rows.empty := ⟨.empty, fun key bytes _ h => absurd h (by simp)⟩

/-- The same books are in order together. -/
theorem sameBooks (h : InOrder rows) (hsame : SameBooks rows rows') : InOrder rows' := by
  refine ⟨hsame.consistent h.consistent, fun key bytes hstem hrow => ?_⟩
  rw [hsame key (Or.inl hstem)] at hrow
  exact h.named key bytes hstem hrow

/-- Binding a name to a free id keeps the books in order. -/
theorem binding (h : InOrder rows) (name : String) {id : UInt64}
    (hid : rows.get? (Layout.idKey id) = none) : InOrder (withBinding rows name id) := by
  refine ⟨h.consistent.withBinding name hid, fun key bytes hstem hrow => ?_⟩
  rw [get?_withBinding] at hrow
  split at hrow
  · rename_i heq
    exact absurd (heq ▸ hstem) (Layout.not_nameStem_prefix_idKey id)
  · split at hrow
    · rename_i heq
      exact ⟨name, heq.symm⟩
    · exact h.named key bytes hstem hrow

/-- Moving an id to another name keeps the books in order. -/
theorem move (h : InOrder rows) {old new : String} {id : UInt64} (hold : boundId? rows old = some id)
    (hmoved : Moved rows rows' old new id) : InOrder rows' := by
  refine ⟨hmoved.consistent h.consistent hold, fun key bytes hstem hrow => ?_⟩
  rw [hmoved key] at hrow
  split at hrow
  · rename_i heq
    exact absurd (heq ▸ hstem) (Layout.not_nameStem_prefix_idKey id)
  · split at hrow
    · rename_i heq
      exact ⟨new, heq.symm⟩
    · split at hrow
      · exact absurd hrow (by simp)
      · exact h.named key bytes hstem hrow

/-- Unbinding a name keeps the books in order. -/
theorem removal (h : InOrder rows) (name : String) : InOrder (rows.erase (Layout.nameKey name)) := by
  have hsub {key bytes : Bytes} (hrow : (rows.erase (Layout.nameKey name)).get? key = some bytes) :
      rows.get? key = some bytes := by
    rw [Rows.get?_erase] at hrow
    split at hrow
    · exact absurd hrow (by simp)
    · exact hrow
  refine ⟨⟨fun name' bytes hrow => h.consistent.legible name' bytes (hsub hrow),
    fun name' id hid => ?_⟩, fun key bytes hstem hrow => h.named key bytes hstem (hsub hrow)⟩
  rw [boundId?_eq_some_iff] at hid
  rw [Rows.get?_erase_of_ne rows (Layout.nameKey_ne_idKey name id)]
  exact h.consistent.paired name' id ((boundId?_eq_some_iff rows name' id).mpr (hsub hid))

/-- Whatever a request posts, the books stay in order. -/
theorem posted (h : InOrder rows) (hposted : Posted rows rows') : InOrder rows' := by
  cases hposted with
  | nothing hsame => exact h.sameBooks hsame
  | binding name id _ hid => exact h.binding name hid
  | move old new id hmid hold hmoved =>
    have hbound : boundId? _ old = some id :=
      (boundId?_congr (hmid _ (Layout.isBook_nameKey old))).trans hold
    exact (h.sameBooks hmid).move hbound hmoved
  | removal name => exact h.removal name

/-- Books stay in order as the rows grow. -/
theorem grows (h : InOrder rows) (hgrows : Grows rows rows') : InOrder rows' := by
  induction hgrows with
  | refl => exact h
  | bind _ _ hid ih => exact ih.binding _ hid

/-! ## Listing the names -/

/-- A name row reads as its name and the id that it holds. -/
theorem exists_readEntry (h : InOrder rows) {row : Row} (hrow : row ∈ rows.scan Layout.nameStem) :
    ∃ name id, row = (Layout.nameKey name, wordBytes id) ∧ readEntry row = .ok (name, id) := by
  obtain ⟨key, bytes⟩ := row
  obtain ⟨hstem, hget⟩ := (Rows.mem_scan_iff rows _ _).mp hrow
  obtain ⟨name, rfl⟩ := h.named key bytes hstem hget
  obtain ⟨id, rfl⟩ := h.consistent.legible name bytes hget
  refine ⟨name, id, rfl, ?_⟩
  simp [readEntry, readId, Layout.nameKey, Except.map]

/-- Books in order list the names that are bound, each with its id, in their byte order. -/
theorem entries_eq_ok (h : InOrder rows) :
    ∃ list, entries rows = .ok list ∧
      (∀ name id, (name, id) ∈ list ↔ rows.get? (Layout.nameKey name) = some (wordBytes id)) ∧
      list.Pairwise fun a b => Text.utf8 a.1 < Text.utf8 b.1 := by
  choose! name id hrow hread using
    fun (row : Row) (hrow : row ∈ rows.scan Layout.nameStem) => h.exists_readEntry hrow
  refine ⟨(rows.scan Layout.nameStem).map fun row => (name row, id row), mapM_eq_ok_map hread,
    fun name' id' => ?_, List.pairwise_map.mpr ?_⟩
  · rw [List.mem_map]
    constructor
    · rintro ⟨row, hmem, heq⟩
      obtain ⟨rfl, rfl⟩ := Prod.mk.inj heq
      have hget := ((Rows.mem_scan_iff rows _ row).mp hmem).2
      rwa [hrow row hmem] at hget
    · intro hget
      have hmem : (Layout.nameKey name', wordBytes id') ∈ rows.scan Layout.nameStem :=
        (Rows.mem_scan_iff rows _ _).mpr ⟨List.prefix_append _ _, hget⟩
      obtain ⟨hkey, hid⟩ := Prod.mk.inj (hrow _ hmem)
      exact ⟨_, hmem, Prod.ext (Layout.nameKey_injective hkey).symm (wordBytes_injective hid).symm⟩
  · refine (rows.scan_keysIncrease Layout.nameStem).imp_of_mem fun ha hb hlt => ?_
    rw [hrow _ ha, hrow _ hb] at hlt
    exact (append_lt_append_iff Layout.nameStem).mp hlt

end InOrder

end Names

end EntityCatalog
