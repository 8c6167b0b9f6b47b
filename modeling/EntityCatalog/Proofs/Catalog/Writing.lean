import EntityCatalog.Proofs.Catalog.Contents

/-!
# Puts and removals

A put first resolves the key of its address, which may bind names and never changes the contents,
then draws a version, and only then stores the record. A removal loads the entity, looks beneath it
unless it may cascade, and erases the whole subtree in one batch.
-/

namespace EntityCatalog

namespace Catalog

variable {catalog : Catalog}

/-- A draw of a version leaves the registry alone. -/
theorem nextVersion_names (catalog : Catalog) :
    (catalog.nextVersion).2.names = catalog.names := by
  rw [nextVersion]

/-- Drawing a version leaves a catalog sound. -/
theorem Sound.nextVersion (h : catalog.Sound) : catalog.nextVersion.2.Sound := by
  have hrows : catalog.nextVersion.2.rows = catalog.rows :=
    congrArg Names.rows (nextVersion_names catalog)
  exact ⟨hrows ▸ h.kept, nextVersion_names catalog ▸ h.faithful⟩

/-- Catalogs with the same rows have the same contents. -/
theorem contents_congr {after : Catalog} (h : after.rows = catalog.rows) :
    after.contents = catalog.contents := by
  funext address
  rw [contents, contents, h]

/-- Rows with the same name rows can take the place of the rows of a sound catalog. -/
theorem Sound.withRows (h : catalog.Sound) {rows : Rows} (hkept : Kept rows)
    (hnames : ∀ name, rows.get? (Layout.nameKey name) = catalog.rows.get? (Layout.nameKey name)) :
    (catalog.withRows rows).Sound :=
  ⟨hkept, h.faithful.mono (Cache.Within.refl _) fun name _ _ => hnames name⟩

/-- A record that is stored under the stored key of its address. -/
theorem store_insert (h : catalog.Sound) {address : Address} {key : Key} {record : Record}
    (hkey : address.storedKey? catalog.rows = some key) (hconcrete : key.wildcard = false)
    (hfits : record.payload.Fits) :
    (catalog.withRows (catalog.rows.insert key.encode record.encode)).Sound ∧
      (catalog.withRows (catalog.rows.insert key.encode record.encode)).contents =
        Contents.write catalog.contents address record := by
  refine ⟨h.withRows (h.kept.insertEntity hkey hconcrete hfits)
    (Kept.get?_insert_nameKey catalog.rows key record.encode), ?_⟩
  funext other
  exact h.kept.record?_insertEntity hkey hconcrete hfits other

/-- Storing a record: over one that is there only if that is allowed. -/
theorem store_meets (h : catalog.Sound) {address : Address} {key : Key} (record : Record)
    (hkey : address.storedKey? catalog.rows = some key) (hconcrete : key.wildcard = false)
    (hfits : record.payload.Fits) (overwrite : Bool) :
    (catalog.store address key.encode record overwrite).2.Sound ∧
      ((overwrite = true ∨ catalog.contents address = none) ∧
          (catalog.store address key.encode record overwrite).1 = .ok record.version ∧
          (catalog.store address key.encode record overwrite).2.contents =
            Contents.write catalog.contents address record ∨
        (overwrite = false ∧ catalog.contents address ≠ none) ∧
          (catalog.store address key.encode record overwrite).1 =
            .error (.entityExists address.path) ∧
          (catalog.store address key.encode record overwrite).2.contents = catalog.contents) := by
  obtain ⟨hsound, hcontents⟩ := store_insert h hkey hconcrete hfits
  have hrow := h.kept.get?_storedKey? hkey
  cases overwrite with
  | true => exact ⟨hsound, Or.inl ⟨Or.inl rfl, rfl, hcontents⟩⟩
  | false =>
    rw [store, if_neg Bool.false_ne_true]
    cases hrecord : catalog.contents address with
    | none =>
      rw [show address.record? catalog.rows = none from hrecord, Option.map_none] at hrow
      rw [Rows.insertNew_of_none record.encode hrow]
      exact ⟨hsound, Or.inl ⟨Or.inr rfl, rfl, hcontents⟩⟩
    | some old =>
      rw [show address.record? catalog.rows = some old from hrecord, Option.map_some] at hrow
      rw [Rows.insertNew_of_some record.encode hrow]
      exact ⟨h, Or.inr ⟨⟨rfl, by simp⟩, rfl, rfl⟩⟩

/-- A sound catalog whose rows grew is sound, with the same contents. -/
theorem Sound.grows (h : catalog.Sound) (after : Catalog)
    (hgrows : Names.Grows catalog.rows after.rows) (hfaithful : after.names.Faithful) :
    after.Sound ∧ after.contents = catalog.contents :=
  ⟨⟨h.kept.grows hgrows, hfaithful⟩, funext fun address => h.kept.record?_grows hgrows address⟩

/-- A put that fails the checks does nothing. -/
theorem put_of_error {address : Address} {fault : Error} (catalog : Catalog) (payload : Bytes)
    (overwrite : Bool) (hchecked : address.checked = .error fault) :
    catalog.put address payload overwrite = (.error fault, catalog) := by
  rcases Address.checked_eq_error hchecked with hsingle | ⟨hsingle, hlevels⟩
  · rw [put, hsingle]
  · rw [put, hsingle]
    dsimp only
    rw [onNames, Address.resolveKey_of_error _ hlevels]

/-- Draw a version and store a record under it. -/
def storeWith (catalog : Catalog) (address : Address) (key payload : Bytes) (overwrite : Bool) :
    Except Error UInt64 × Catalog :=
  match catalog.nextVersion with
  | (.error fault, catalog) => (.error fault, catalog)
  | (.ok version, catalog) => catalog.store address key ⟨version, payload⟩ overwrite

/-- What is left of a put when the names of its address are bound keeps the promise of the put. -/
theorem storeWith_meets (h : catalog.Sound) {address : Address} {key : Key} {payload : Bytes}
    (hkey : address.storedKey? catalog.rows = some key) (hconcrete : key.wildcard = false)
    (hfits : payload.Fits) (overwrite : Bool) :
    (catalog.storeWith address key.encode payload overwrite).2.Sound ∧
      PutMeets catalog.contents (catalog.storeWith address key.encode payload overwrite).2.contents
        catalog.nextVersion.1 address payload overwrite
        (catalog.storeWith address key.encode payload overwrite).1 := by
  have hchecked := Address.checked_of_single (Address.single_of_storedKey? hkey hconcrete)
  have hnext := h.nextVersion
  have hrows : catalog.nextVersion.2.rows = catalog.rows :=
    congrArg Names.rows (nextVersion_names catalog)
  have hsame := contents_congr hrows
  rw [← hrows] at hkey
  rw [storeWith]
  cases hversion : catalog.nextVersion with
  | mk drawn next =>
    rw [hversion] at hnext hsame hkey
    cases drawn with
    | error fault =>
      exact ⟨hnext, fun _ hok => absurd hok (by simp), fun _ _ => hsame, fun _ => rfl,
        fun _ => Or.inl (by rw [hchecked]; rfl)⟩
    | ok version =>
      rw [← hsame]
      obtain ⟨hafter, hstored | hrefused⟩ :=
        store_meets hnext ⟨version, payload⟩ hkey hconcrete hfits overwrite
      · obtain ⟨hallowed, hanswer, hwritten⟩ := hstored
        refine ⟨hafter, fun version' hok => ?_, fun fault hfault => ?_, fun hpresent => ?_,
          fun _ => Or.inl (by rw [hchecked]; exact hanswer)⟩
        · obtain rfl := Except.ok.inj (hanswer.symm.trans hok)
          exact ⟨rfl, hwritten⟩
        · exact absurd (hanswer.symm.trans hfault) (by simp)
        · have hoverwrite : overwrite = true := hallowed.resolve_right hpresent
          rw [hanswer, hoverwrite]
          rfl
      · obtain ⟨⟨hoverwrite, hpresent⟩, hanswer, hkept⟩ := hrefused
        refine ⟨hafter, fun version' hok => ?_, fun _ _ => hkept, fun _ => ?_,
          fun habsent => absurd habsent hpresent⟩
        · exact absurd (hanswer.symm.trans hok) (by simp)
        · rw [hanswer, hoverwrite]
          rfl

/-- A put keeps its promise. -/
theorem put_meets (h : catalog.Sound) (address : Address) {payload : Bytes} (hfits : payload.Fits)
    (overwrite : Bool) :
    (catalog.put address payload overwrite).2.Sound ∧
      PutMeets catalog.contents (catalog.put address payload overwrite).2.contents
        catalog.nextVersion.1 address payload overwrite (catalog.put address payload overwrite).1 := by
  cases hchecked : address.checked with
  | error fault =>
    rw [put_of_error catalog payload overwrite hchecked]
    refine ⟨h, fun _ hstored => absurd hstored (by simp), fun _ _ => rfl, fun hpresent => ?_,
      fun _ => Or.inl (by rw [hchecked]; rfl)⟩
    obtain ⟨record, hrecord⟩ := Option.ne_none_iff_exists'.mp hpresent
    rw [Address.checked_of_single (h.contents_single hrecord)] at hchecked
    exact absurd hchecked (by simp)
  | ok =>
    have hsingle := (address.checked_eq_ok_iff).mp hchecked
    obtain ⟨hgrows, hfaithful, hstored⟩ := Address.resolveKey_grows h.faithful h.kept.consistent address
    rw [put, hsingle.single_path]
    dsimp only
    cases hresolve : catalog.onNames address.resolveKey with
    | mk answer resolved =>
      have hanswer : (address.resolveKey catalog.names).1 = answer := congrArg Prod.fst hresolve
      have hresolved : resolved =
          { catalog with names := (address.resolveKey catalog.names).2 } :=
        (congrArg Prod.snd hresolve).symm
      have hnames : resolved.names = (address.resolveKey catalog.names).2 := by rw [hresolved]
      have hdraw : resolved.nextVersion.1 = catalog.nextVersion.1 := by rw [hresolved]; rfl
      rw [← hnames] at hgrows hfaithful hstored
      obtain ⟨hsound, hcontents⟩ := h.grows resolved hgrows hfaithful
      cases answer with
      | error fault =>
        obtain ⟨name, rfl⟩ :=
          Address.resolveKey_error h.faithful h.kept.consistent hsingle.levels hanswer
        refine ⟨hsound, fun _ hok => absurd hok (by simp), fun _ _ => hcontents, fun hpresent => ?_,
          fun _ => Or.inr ⟨name, rfl⟩⟩
        -- The names on the path of an entity that is there are bound.
        obtain ⟨record, hrecord⟩ := Option.ne_none_iff_exists'.mp hpresent
        obtain ⟨key, hkey, -⟩ := (h.kept.record?_eq_some_iff address record).mp hrecord
        rw [(Address.resolveKey_of_storedKey? h.faithful h.kept.consistent hkey).1] at hanswer
        exact absurd hanswer (by simp)
      | ok key =>
        have hkey := hstored key hanswer
        have hconcrete : key.wildcard = false := by
          obtain ⟨ids, -, rfl⟩ := (hsingle.storedKey?_eq_some_iff _ key).mp hkey
          rfl
        rw [← hdraw, ← hcontents]
        exact storeWith_meets hsound hkey hconcrete hfits overwrite

/-! ## Removals -/

/-- A removal that fails the checks does nothing. -/
theorem delete_of_error {address : Address} {fault : Error} (catalog : Catalog) (cascade : Bool)
    (hchecked : address.checked = .error fault) :
    catalog.delete address cascade = (.error fault, catalog) := by
  rcases Address.checked_eq_error hchecked with hsingle | ⟨hsingle, hlevels⟩
  · rw [delete, hsingle]
  · rw [delete, hsingle]
    dsimp only
    rw [load_of_error catalog hlevels]

/-- No check of a path is about what lies beneath an entity. -/
theorem checked_ne_hasSubEntities (address : Address) (path : Path) :
    address.checked ≠ .error (.hasSubEntities path) := by
  intro hchecked
  rcases Address.checked_eq_error hchecked with hsingle | ⟨-, hlevels⟩
  · rw [single] at hsingle
    split at hsingle <;> simp at hsingle
  · rw [Address.levels] at hlevels
    split at hlevels
    · simp at hlevels
    · repeat' split at hlevels
      all_goals simp at hlevels

/-- Where there is no entity there is nothing to remove. -/
theorem delete_of_none (h : catalog.Sound) {address : Address} (cascade : Bool)
    (hsingle : address.Single) (hrecord : catalog.contents address = none) :
    (catalog.delete address cascade).1 = .ok false ∧
      catalog.Looked (catalog.delete address cascade).2 := by
  obtain ⟨hanswer, hlooked⟩ := load_of_none h hsingle hrecord
  rw [delete, hsingle.single_path]
  dsimp only
  cases hload : catalog.load address with
  | mk answer after =>
    rw [hload] at hanswer hlooked
    obtain rfl := hanswer
    exact ⟨rfl, hlooked⟩

/-- An entity is removed with its subtree, unless what lies beneath it has to stay. -/
theorem delete_of_some (h : catalog.Sound) {address : Address} (cascade : Bool) {record : Record}
    (hrecord : catalog.contents address = some record) :
    (catalog.delete address cascade).2.Sound ∧
      ((cascade = false ∧ Contents.Populated catalog.contents address) ∧
          (catalog.delete address cascade).1 = .error (.hasSubEntities address.path) ∧
          (catalog.delete address cascade).2.contents = catalog.contents ∨
        ¬ (cascade = false ∧ Contents.Populated catalog.contents address) ∧
          (catalog.delete address cascade).1 = .ok true ∧
          (catalog.delete address cascade).2.contents =
            Contents.remove catalog.contents address) := by
  obtain ⟨key, hkey, hconcrete, hanswer, hlooked⟩ := load_of_some h hrecord
  rw [delete, (h.contents_single hrecord).single_path]
  dsimp only
  cases hload : catalog.load address with
  | mk answer after =>
    rw [hload] at hanswer hlooked
    obtain rfl := hanswer
    have hsound := hlooked.sound h
    rw [← hlooked.rows] at hkey
    have hbeneath := hsound.kept.hasBeneath_iff hkey hconcrete
    have hpopulated : hasBeneath after.rows key.encode address.kind = true ↔
        Contents.Populated catalog.contents address := by
      rw [hbeneath, ← hlooked.contents]
      rfl
    dsimp only
    by_cases hblocked : cascade = false ∧ Contents.Populated catalog.contents address
    · rw [if_pos (by simp [hblocked.1, hpopulated.mpr hblocked.2])]
      exact ⟨hsound, Or.inl ⟨hblocked, rfl, hlooked.contents⟩⟩
    · have hfree : (!cascade && hasBeneath after.rows key.encode address.kind) = false := by
        cases cascade with
        | true => rfl
        | false =>
          rw [Bool.not_false, Bool.true_and, ← Bool.not_eq_true, hpopulated]
          exact fun hbelow => hblocked ⟨rfl, hbelow⟩
      rw [hfree, if_neg Bool.false_ne_true]
      refine ⟨hsound.withRows (hsound.kept.removal hkey hconcrete)
        (Kept.get?_batch_removal_nameKey hkey hconcrete), Or.inr ⟨hblocked, rfl, ?_⟩⟩
      rw [← hlooked.contents]
      funext other
      exact hsound.kept.record?_removal hkey hconcrete other

/-- A removal keeps its promise. -/
theorem delete_meets (h : catalog.Sound) (address : Address) (cascade : Bool) :
    (catalog.delete address cascade).2.Sound ∧
      DeleteMeets catalog.contents (catalog.delete address cascade).2.contents address cascade
        (catalog.delete address cascade).1 := by
  cases hrecord : catalog.contents address with
  | none =>
    cases hchecked : address.checked with
    | error fault =>
      have hother : fault ≠ .hasSubEntities address.path := by
        rintro rfl
        exact checked_ne_hasSubEntities address address.path hchecked
      rw [delete_of_error catalog cascade hchecked]
      refine ⟨h, fun hok => absurd hok (by simp), fun _ => rfl, by simp [hchecked],
        by simp [hrecord, hother], fun fault' hfault => ?_, fun hpresent => absurd hrecord hpresent⟩
      exact congrArg Except.error (Except.error.inj (hchecked.symm.trans hfault))
    | ok =>
      have hsingle := (address.checked_eq_ok_iff).mp hchecked
      obtain ⟨hanswer, hlooked⟩ := delete_of_none h cascade hsingle hrecord
      rw [hanswer]
      exact ⟨hlooked.sound h, fun hok => absurd hok (by simp), fun _ => hlooked.contents,
        by simp [hchecked, hrecord], by simp [hrecord],
        fun fault hfault => absurd (hchecked.symm.trans hfault) (by simp),
        fun hpresent => absurd hrecord hpresent⟩
  | some record =>
    have hchecked := Address.checked_of_single (h.contents_single hrecord)
    obtain ⟨hsound, hblocked | hremoved⟩ := delete_of_some h cascade hrecord
    · obtain ⟨hboth, hanswer, hcontents⟩ := hblocked
      rw [hanswer]
      refine ⟨hsound, fun hok => absurd hok (by simp), fun _ => hcontents, by simp [hrecord],
        by simp [hrecord, hboth], fun fault hfault => absurd (hchecked.symm.trans hfault) (by simp),
        fun _ hallowed => ?_⟩
      rcases hallowed with hcascade | hempty
      · exact absurd (hboth.1.symm.trans hcascade) (by simp)
      · exact absurd hboth.2 hempty
    · obtain ⟨hfree, hanswer, hcontents⟩ := hremoved
      rw [hanswer]
      refine ⟨hsound, fun _ => hcontents, fun hne => absurd rfl hne, by simp [hrecord], ?_,
        fun fault hfault => absurd (hchecked.symm.trans hfault) (by simp), fun _ _ => rfl⟩
      simp only [reduceCtorEq, false_iff]
      exact fun hall => hfree hall.2

end Catalog

end EntityCatalog
