import EntityCatalog.Proofs.Names.Books

/-!
# A rename is all or nothing

A rename over consistent rows writes its whole batch or nothing, whatever changes go along with it, and
its answer tells which. The answer is false when the old name is not bound. The batch is committed when
the new name is free or gives up its id, and only an insertion that finds its key taken stops it then.

When the changes that go along leave the books alone, a rename between different names moves one
binding: the new name has the id and the old one has none, the id row holds the new name, and every
other row of the books is as it was.
-/

namespace EntityCatalog

namespace Names

/-- A name that is not cached is found in its name row. -/
theorem find?_of_not_cached {names : Names} {name : String} (h : names.cache.cached? name = none) :
    (names.find? name).1 = storedId? names.rows name := by
  have hrows := names.rows_lookup name
  have hmiss : (names.lookup name).1 = none := by
    cases hfound : (names.lookup name).1 with
    | none => rfl
    | some id =>
      rw [Cache.cached?_of_get hfound] at h
      exact absurd h (by simp)
  rw [find?]
  cases hlookup : names.lookup name with
  | mk found after =>
    rw [hlookup] at hrows hmiss
    obtain rfl : found = none := hmiss
    dsimp only at hrows ⊢
    rw [← hrows]
    cases storedId? after.rows name with
    | error fault => rfl
    | ok bound => cases bound <;> rfl

/-- After the changes of a rename were committed neither name is cached. -/
theorem cached?_commitRename (names : Names) (old new : String) (changes : List Change) :
    (names.commitRename old new changes).2.cache.cached? old = none ∧
      (names.commitRename old new changes).2.cache.cached? new = none := by
  have hcache : (names.commitRename old new changes).2.cache =
      (names.cache.erase old).erase new := by
    rw [commitRename_eq]
    cases Rows.batch? changes names.rows <;> rfl
  rw [hcache, Cache.cached?_erase, Cache.cached?_erase, Cache.cached?_erase]
  simp

/-- What a rename between different names makes of the books: the one binding that has moved. An id
that the new name gave up stays reserved. -/
structure MovesOne (names after : Names) (old new : String) (id : UInt64) : Prop where
  given : (after.find? new).1 = .ok (some id)
  taken : (after.find? old).1 = .ok none
  named : storedName? after.rows id = .ok (some new)
  reserved : ∀ other, boundId? names.rows new = some other →
    after.rows.get? (Layout.idKey other) = names.rows.get? (Layout.idKey other)
  kept : ∀ key, Layout.IsBook key → key ≠ Layout.nameKey old → key ≠ Layout.nameKey new →
    key ≠ Layout.idKey id → after.rows.get? key = names.rows.get? key

/-- A registry that caches neither name, and whose rows come from a move on top of changes that leave
the books alone, has moved one binding. -/
theorem MovesOne.of_moved {names after : Names} {mid : Rows} {old new : String} {id : UInt64}
    (hrows : Consistent names.rows) (hne : old ≠ new) (hold : boundId? names.rows old = some id)
    (hmid : SameBooks names.rows mid) (hmoved : Moved mid after.rows old new id)
    (hcache : after.cache.cached? old = none ∧ after.cache.cached? new = none) :
    names.MovesOne after old new id := by
  have hafter : Consistent after.rows :=
    hmoved.consistent (hmid.consistent hrows)
      ((boundId?_congr (hmid _ (Layout.isBook_nameKey old))).trans hold)
  have hnew : boundId? after.rows new = some id := by rw [hmoved.boundId?_eq, if_pos rfl]
  have hkept : ∀ key, Layout.IsBook key → key ≠ Layout.nameKey old → key ≠ Layout.nameKey new →
      key ≠ Layout.idKey id → after.rows.get? key = names.rows.get? key := by
    intro key hbook hkeyOld hkeyNew hkeyId
    rw [hmoved key, if_neg hkeyId.symm, if_neg hkeyNew.symm, if_neg hkeyOld.symm, hmid key hbook]
  refine ⟨?_, ?_, hafter.storedName?_eq hnew, fun other hother => ?_, hkept⟩
  · rw [find?_of_not_cached hcache.2, hafter.storedId?_eq, hnew]
  · rw [find?_of_not_cached hcache.1, hafter.storedId?_eq, hmoved.boundId?_eq, if_neg hne.symm,
      if_pos rfl]
  · have hids : Layout.idKey other ≠ Layout.idKey id := by
      intro heq
      rw [Layout.idKey_injective heq] at hother
      exact hne (hrows.name_unique hold hother)
    exact hkept _ (Layout.isBook_idKey other) (Layout.nameKey_ne_idKey old other).symm
      (Layout.nameKey_ne_idKey new other).symm hids

/-- When the changes that go along leave the books alone, they alone decide whether the batch of a
rename between different names is applied, and the batch moves one binding on top of them. -/
theorem movesOne_of_commitRename {names : Names} {rows : Rows} (hrows : Consistent names.rows)
    {old new : String} {id : UInt64} {along : List Change} (hspare : SparesBooks along)
    (hne : old ≠ new) (hold : boundId? names.rows old = some id)
    (hbatch : Rows.batch? (renameBatch names.rows old new id along) names.rows = some rows) :
    names.MovesOne (names.commitRename old new (renameBatch names.rows old new id along)).2
      old new id := by
  cases hmid : Rows.batch? along names.rows with
  | none =>
    rw [batch?_renameBatch_of_none old new id hmid] at hbatch
    exact absurd hbatch (by simp)
  | some mid =>
    have hsame : SameBooks names.rows mid := .of_batch? hmid hspare
    obtain ⟨rows', hrows', hmoved⟩ :=
      batch?_renameBatch hrows id hne hmid (hsame _ (Layout.isBook_nameKey new))
    rw [← rows_commitRename_of_made hrows'] at hmoved
    exact .of_moved hrows hne hold hsame hmoved (cached?_commitRename names old new _)

/-- A rename over consistent rows is all or nothing. Its answer is false exactly when the old name is not
bound, and a new name that is bound to an id that is not to be replaced is taken. Otherwise the answer is
true exactly when no insertion abandons the batch of the changes that go along and those of the rename,
and the rows are then those that the batch makes. When the changes that go along leave the books alone, a
rename that is made moves one binding, and between equal names does nothing but those changes. -/
theorem renameWith_allOrNothing (names : Names) (hrows : Consistent names.rows) (old new : String)
    (replaced : Option UInt64) (along : List Change) :
    let answer := (names.renameWith old new replaced along).1
    let after := (names.renameWith old new replaced along).2
    (answer ≠ .ok true → after.rows = names.rows) ∧
    (answer = .ok false ↔ boundId? names.rows old = none) ∧
    ∀ id, boundId? names.rows old = some id →
      (∀ taken, old ≠ new → boundId? names.rows new = some taken → replaced ≠ some taken →
        answer = .error (.nameTaken new)) ∧
      ((old = new ∨ ∀ taken, boundId? names.rows new = some taken → replaced = some taken) →
        let batch := renameBatch names.rows old new id along
        (answer = .ok true ↔ ∃ rows, Rows.batch? batch names.rows = some rows) ∧
          ∀ rows, Rows.batch? batch names.rows = some rows → after.rows = rows) ∧
      (SparesBooks along → answer = .ok true →
        if old = new then Rows.batch? along names.rows = some after.rows
        else names.MovesOne after old new id) := by
  cases hold : boundId? names.rows old with
  | none =>
    rw [renameWith_of_unbound hrows new replaced along hold]
    exact ⟨fun _ => rfl, by simp, fun id hid => absurd hid (by simp)⟩
  | some id =>
    by_cases hnew : old = new ∨ ∀ taken, boundId? names.rows new = some taken → replaced = some taken
    · rw [renameWith_of_bound hrows along hold hnew]
      refine ⟨rows_commitRename_of_failed, iff_of_false (commitRename_ne_false _ _ _ _) (by simp),
        fun id' hid' => ?_⟩
      obtain rfl := Option.some.inj hid'
      refine ⟨fun taken hne htaken hreplaced => absurd (hnew.resolve_left hne taken htaken) hreplaced,
        fun _ => ⟨commitRename_eq_true_iff _ _ _ _, fun rows => rows_commitRename_of_made⟩,
        fun hspare hmade => ?_⟩
      obtain ⟨rows, hbatch⟩ := (commitRename_eq_true_iff _ _ _ _).mp hmade
      split
      · rename_i hsame
        rw [rows_commitRename_of_made hbatch, ← hbatch, renameBatch, if_pos hsame]
      · rename_i hne
        exact movesOne_of_commitRename hrows hspare hne hold hbatch
    · obtain ⟨hne, hbound⟩ := not_or.mp hnew
      obtain ⟨taken, htaken⟩ := Classical.not_forall.mp hbound
      obtain ⟨htaken, hreplaced⟩ := Classical.not_imp.mp htaken
      rw [renameWith_of_taken hrows along hne hold htaken hreplaced]
      refine ⟨fun _ => rfl, by simp, fun id' _ => ⟨fun _ _ _ _ => rfl, fun h => absurd h hnew, ?_⟩⟩
      exact fun _ h => absurd h (by simp)

/-- A registry with two bound names, which it caches. -/
def twoNames : Names :=
  let names : Names :=
    ⟨withBinding (withBinding .empty "a" 1) "b" 2, .create 8 .endless, .countingFrom 3⟩
  (names.remember "a" 1).remember "b" 2

/-- A rename takes the name of an id that it may replace, and another that its own changes bind is
refused. -/
theorem renameWith_allOrNothing_twoNames :
    ((twoNames.renameWith "a" "b" (some 2) [.insert [0] [1]]).1 = .ok true ∧
      twoNames.MovesOne (twoNames.renameWith "a" "b" (some 2) [.insert [0] [1]]).2 "a" "b" 1) ∧
    (twoNames.renameWith "a" "c" none [.insert (Layout.nameKey "c") []]).1 =
        .error (.nameTaken "c") ∧
      (twoNames.renameWith "a" "c" none [.insert (Layout.nameKey "c") []]).2.rows = twoNames.rows := by
  have hone : Consistent (withBinding .empty "a" 1) := Consistent.empty.withBinding "a" rfl
  have hrows : Consistent twoNames.rows := hone.withBinding "b" rfl
  have hspare : SparesBooks [.insert [0] [1]] := by
    intro change hchange key hbook htouches
    obtain rfl := List.mem_singleton.mp hchange
    obtain rfl : [0] = key := htouches
    exact absurd hbook (by simp [Layout.IsBook, Layout.nameStem, Layout.idStem])
  have hmade : (twoNames.renameWith "a" "b" (some 2) [.insert [0] [1]]).1 = .ok true := by rfl
  have hblocked : (twoNames.renameWith "a" "c" none [.insert (Layout.nameKey "c") []]).1 =
      .error (.nameTaken "c") := by rfl
  obtain ⟨-, -, hbound⟩ :=
    renameWith_allOrNothing twoNames hrows "a" "b" (some 2) [.insert [0] [1]]
  obtain ⟨-, -, hmoves⟩ := hbound 1 rfl
  obtain ⟨hkept, -, -⟩ :=
    renameWith_allOrNothing twoNames hrows "a" "c" none [.insert (Layout.nameKey "c") []]
  exact ⟨⟨hmade, hmoves hspare hmade⟩, hblocked, hkept (by rw [hblocked]; simp)⟩

end Names

end EntityCatalog
