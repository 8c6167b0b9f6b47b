import EntityCatalog.Proofs.Catalog.Writing

/-!
# Updates

An update without a new name writes the record in place. An update with one first plans the move of
the binding, which answers from the contents at the new address and beneath it, and then writes the
record and moves the binding in one batch.
-/

namespace EntityCatalog

namespace Address

/-- The stored key of an entity under another name depends on the id of that name. -/
theorem storedKey?_renamed {rows : Rows} {address : Address} {above : List UInt64}
    (hsingle : address.Single) {name : String} (hname : isConcrete name = true)
    (habove : trail? rows (address.levelSteps address.kinds) [] = some above) :
    (address.renamed name).storedKey? rows =
      (Names.boundId? rows (scopedName above address.kind name)).map fun id =>
        ⟨address.kind, above ++ [id], false⟩ := by
  rw [(hsingle.renamed hname).storedKey?_eq, line_renamed, trail?_append, habove, Option.bind_some,
    trail?]
  cases Names.boundId? rows (scopedName above address.kind name) <;> rfl

/-- An address above one that has a key has a key itself. -/
theorem storedKey?_of_beneath {rows : Rows} {upper lower : Address} {key : Key}
    (hupper : upper.Single) (hkey : lower.storedKey? rows = some key) (hlower : lower.Single)
    (hbeneath : upper.Beneath lower) : ∃ key', upper.storedKey? rows = some key' := by
  obtain ⟨ids, hids, -⟩ := (hlower.storedKey?_eq_some_iff rows key).mp hkey
  obtain ⟨ids', hids', -⟩ :=
    trail?_of_prefix ((line_prefix_iff hupper hlower).mpr (Or.inr hbeneath)) hids
  exact ⟨_, (hupper.storedKey?_eq_some_iff rows _).mpr ⟨ids', hids', rfl⟩⟩

/-- An address does not lie beneath itself under another name. -/
theorem not_beneath_renamed (address : Address) (name : String) :
    ¬ (address.renamed name).Beneath address := by
  rintro ⟨-, hstem⟩
  have hlength := hstem.length_le
  simp only [renamed, Path.withName, Path.segments, List.length_append, List.length_singleton]
    at hlength
  omega

/-- Another name for the leaf makes another address. -/
theorem renamed_ne {address : Address} {name : String} (hne : name ≠ address.path.leaf) :
    address ≠ address.renamed name :=
  fun heq => hne (congrArg (fun other : Address => other.path.leaf) heq).symm

end Address

/-- What is free under a new name stays free when the record under the old name is written. -/
theorem Contents.write_eq_none_of_renamed {contents : Contents} {address other : Address}
    {name : String} (record : Record) (hne : name ≠ address.path.leaf)
    (hfree : contents (address.renamed name) = none)
    (hempty : ¬ contents.Populated (address.renamed name))
    (hother : other = address.renamed name ∨ (address.renamed name).Beneath other) :
    contents.write address record other = none := by
  have hold : other ≠ address := by
    rintro rfl
    rcases hother with heq | hbeneath
    · exact Address.renamed_ne hne heq
    · exact Address.not_beneath_renamed _ name hbeneath
  rw [write, if_neg hold]
  rcases hother with rfl | hbeneath
  · exact hfree
  · exact Classical.byContradiction fun hpresent => hempty ⟨other, hbeneath, hpresent⟩

namespace Catalog

variable {catalog : Catalog}

/-- Finding the scoped name of an entity. -/
theorem onNames_findName (h : catalog.Sound) {address : Address} (hsingle : address.Single)
    {above : List UInt64}
    (habove : Address.trail? catalog.rows (address.levelSteps address.kinds) [] = some above) :
    (catalog.onNames address.findName).1 =
        .ok (some (scopedName above address.kind address.path.leaf)) ∧
      catalog.Looked (catalog.onNames address.findName).2 := by
  obtain ⟨hanswer, hread⟩ := Address.findName_eq h.faithful h.kept.consistent hsingle
  refine ⟨?_, onNames_looked address.findName hread⟩
  have hrows : catalog.names.rows = catalog.rows := rfl
  rw [hrows, habove] at hanswer
  exact hanswer

/-- What a rename replaces: whatever the new name is bound to, as long as nothing is stored beneath
it. -/
theorem leftover_eq (h : catalog.Sound) {address : Address} (hsingle : address.Single)
    {name : String} (hname : Address.isConcrete name = true) {above : List UInt64}
    (habove : Address.trail? catalog.rows (address.levelSteps address.kinds) [] = some above) :
    catalog.Looked (catalog.leftover (address.renamed name) (scopedName above address.kind name)).2 ∧
      ((Contents.Populated catalog.contents (address.renamed name) →
        (catalog.leftover (address.renamed name) (scopedName above address.kind name)).1 =
          .error (.nameTaken (address.renamed name).path.text)) ∧
      (¬ Contents.Populated catalog.contents (address.renamed name) →
        (catalog.leftover (address.renamed name) (scopedName above address.kind name)).1 =
          .ok (Names.boundId? catalog.rows (scopedName above address.kind name)))) := by
  have htarget := hsingle.renamed hname
  have hstored := Address.storedKey?_renamed hsingle hname habove
  obtain ⟨hanswer, hread⟩ := Address.findKey_eq h.faithful h.kept.consistent htarget.levels
  have hlooked := onNames_looked (address.renamed name).findKey hread
  rw [leftover]
  cases hfind : catalog.onNames (address.renamed name).findKey with
  | mk answer after =>
    have hfound : answer = .ok ((address.renamed name).storedKey? catalog.rows) :=
      (congrArg Prod.fst hfind).symm.trans hanswer
    rw [hfind] at hlooked
    subst hfound
    cases hbound : Names.boundId? catalog.rows (scopedName above address.kind name) with
    | none =>
      rw [hbound, Option.map_none] at hstored
      rw [hstored]
      refine ⟨hlooked, fun hpopulated => ?_, fun _ => rfl⟩
      -- What lies beneath the new address has the new name on its trail.
      obtain ⟨other, hbeneath, hrecord⟩ := hpopulated
      obtain ⟨record, hrecord⟩ := Option.ne_none_iff_exists'.mp hrecord
      obtain ⟨key, hkey, -⟩ := (h.kept.record?_eq_some_iff other record).mp hrecord
      obtain ⟨key', hkey'⟩ :=
        Address.storedKey?_of_beneath htarget hkey (h.contents_single hrecord) hbeneath
      rw [hstored] at hkey'
      exact absurd hkey' (by simp)
    | some id =>
      rw [hbound, Option.map_some] at hstored
      rw [hstored]
      have hbeneath := h.kept.hasBeneath_iff hstored rfl
      dsimp only
      rw [hlooked.rows]
      by_cases hpopulated : Contents.Populated catalog.contents (address.renamed name)
      · rw [if_pos (hbeneath.mpr hpopulated)]
        exact ⟨hlooked, fun _ => rfl, fun hempty => absurd hpopulated hempty⟩
      · rw [if_neg (mt hbeneath.mp hpopulated)]
        have hsound := hlooked.sound h
        have hid := Names.find?_eq hsound.faithful hsound.kept.consistent
          (scopedName above address.kind name)
        have hrows : after.names.rows = catalog.rows := hlooked.rows
        rw [hrows, hbound] at hid
        exact ⟨hlooked.trans (onNames_looked _ (Names.find?_read hsound.faithful _)),
          fun hpop => absurd hpop hpopulated, fun _ => hid⟩

/-- Where the binding of an entity is to be moved, if the new address is free. -/
theorem moveBetween_eq (h : catalog.Sound) {address : Address} (hsingle : address.Single)
    {name : String} (hname : Address.isConcrete name = true) {above : List UInt64}
    (habove : Address.trail? catalog.rows (address.levelSteps address.kinds) [] = some above) :
    catalog.Looked (catalog.moveBetween address (address.renamed name)).2 ∧
      ((Contents.Populated catalog.contents (address.renamed name) →
        (catalog.moveBetween address (address.renamed name)).1 =
          .error (.nameTaken (address.renamed name).path.text)) ∧
      (¬ Contents.Populated catalog.contents (address.renamed name) →
        (catalog.moveBetween address (address.renamed name)).1 =
          .ok ⟨scopedName above address.kind address.path.leaf, scopedName above address.kind name,
            Names.boundId? catalog.rows (scopedName above address.kind name)⟩)) := by
  obtain ⟨hold, hlooked⟩ := onNames_findName h hsingle habove
  rw [moveBetween]
  cases hfindOld : catalog.onNames address.findName with
  | mk answer first =>
    rw [hfindOld] at hold hlooked
    obtain rfl := hold
    have hfirst := hlooked.sound h
    have htrail : Address.trail? first.rows
        ((address.renamed name).levelSteps (address.renamed name).kinds) [] = some above := by
      rw [hlooked.rows]
      exact habove
    obtain ⟨hnew, hlooked'⟩ := onNames_findName hfirst (hsingle.renamed hname) htrail
    dsimp only
    cases hfindNew : first.onNames (address.renamed name).findName with
    | mk answer second =>
      rw [hfindNew] at hnew hlooked'
      obtain rfl := hnew
      have hboth := hlooked.trans hlooked'
      have hsecond := hboth.sound h
      obtain ⟨hlast, hpopulated, hfree⟩ :=
        leftover_eq hsecond hsingle hname (by rw [hboth.rows]; exact habove)
      rw [hboth.contents] at hpopulated hfree
      rw [hboth.rows] at hfree
      have hscoped : scopedName above (address.renamed name).kind (address.renamed name).path.leaf =
          scopedName above address.kind name := rfl
      dsimp only
      rw [hscoped]
      cases hleftover :
          second.leftover (address.renamed name) (scopedName above address.kind name) with
      | mk answer third =>
        rw [hleftover] at hlast hpopulated hfree
        by_cases hpop : Contents.Populated catalog.contents (address.renamed name)
        · obtain rfl := hpopulated hpop
          exact ⟨hboth.trans hlast, fun _ => rfl, fun hempty => absurd hpop hempty⟩
        · obtain rfl := hfree hpop
          exact ⟨hboth.trans hlast, fun hpop' => absurd hpop' hpop, fun _ => rfl⟩

/-- What a plan of a rename answers, told by the contents at the new address and beneath it. -/
structure Planned (catalog : Catalog) (address : Address) (name : String) (above : List UInt64)
    (answer : Except Error Move) : Prop where
  badName : Address.isConcrete name = false → answer = .error (.invalidArgument (.badName name))
  taken : catalog.contents (address.renamed name) ≠ none →
    answer = .error (.entityExists (address.renamed name).path)
  occupied : Address.isConcrete name = true → catalog.contents (address.renamed name) = none →
    Contents.Populated catalog.contents (address.renamed name) →
    answer = .error (.nameTaken (address.renamed name).path.text)
  free : Address.isConcrete name = true → catalog.contents (address.renamed name) = none →
    ¬ Contents.Populated catalog.contents (address.renamed name) →
    answer = .ok ⟨scopedName above address.kind address.path.leaf,
      scopedName above address.kind name,
      Names.boundId? catalog.rows (scopedName above address.kind name)⟩

/-- A rename that is not planned is refused. -/
theorem Planned.error_of_not_free {address : Address} {name : String} {above : List UInt64}
    {answer : Except Error Move} (h : catalog.Planned address name above answer)
    (hfree : ¬ (Address.isConcrete name = true ∧ catalog.contents (address.renamed name) = none ∧
      ¬ Contents.Populated catalog.contents (address.renamed name))) :
    ∃ fault, answer = .error fault := by
  cases hname : Address.isConcrete name with
  | false => exact ⟨_, h.badName hname⟩
  | true =>
    by_cases hnone : catalog.contents (address.renamed name) = none
    · by_cases hpopulated : Contents.Populated catalog.contents (address.renamed name)
      · exact ⟨_, h.occupied hname hnone hpopulated⟩
      · exact absurd ⟨hname, hnone, hpopulated⟩ hfree
    · exact ⟨_, h.taken hnone⟩

/-- Planning a rename is a look. -/
theorem planMove_eq (h : catalog.Sound) {address : Address} (hsingle : address.Single)
    {above : List UInt64}
    (habove : Address.trail? catalog.rows (address.levelSteps address.kinds) [] = some above)
    (name : String) :
    catalog.Looked (catalog.planMove address name).2 ∧
      catalog.Planned address name above (catalog.planMove address name).1 := by
  have htarget : (⟨address.path.withName name, address.kind⟩ : Address) = address.renamed name := rfl
  rw [planMove, htarget]
  cases hname : Address.isConcrete name with
  | false =>
    rw [if_pos (by rfl)]
    refine ⟨.refl h, fun _ => rfl, fun htaken => ?_, fun hconcrete => ?_, fun hconcrete => ?_⟩
    · obtain ⟨record, hrecord⟩ := Option.ne_none_iff_exists'.mp htaken
      have hleaf := (h.contents_single hrecord).isConcrete_leaf
      exact absurd (hname.symm.trans hleaf) (by simp)
    · exact absurd (hname.symm.trans hconcrete) (by simp)
    · exact absurd (hname.symm.trans hconcrete) (by simp)
  | true =>
    rw [if_neg (by simp)]
    obtain ⟨hanswer, hlooked⟩ := contains_eq h (address.renamed name)
    rw [Address.checked_of_single (hsingle.renamed hname)] at hanswer
    cases hcontains : catalog.contains (address.renamed name) with
    | mk answer after =>
      rw [hcontains] at hanswer hlooked
      obtain rfl := hanswer
      cases hrecord : catalog.contents (address.renamed name) with
      | some record =>
        exact ⟨hlooked, fun hbad => absurd (hname.symm.trans hbad) (by simp), fun _ => rfl,
          fun _ hnone => absurd (hrecord.symm.trans hnone) (by simp),
          fun _ hnone => absurd (hrecord.symm.trans hnone) (by simp)⟩
      | none =>
        obtain ⟨hlast, hpopulated, hfree⟩ := moveBetween_eq (hlooked.sound h) hsingle hname
          (by rw [hlooked.rows]; exact habove)
        rw [hlooked.contents] at hpopulated hfree
        rw [hlooked.rows] at hfree
        exact ⟨hlooked.trans hlast, fun hbad => absurd (hname.symm.trans hbad) (by simp),
          fun htaken => absurd hrecord htaken, fun _ _ => hpopulated, fun _ _ => hfree⟩

/-! ## Writing the new record -/

/-- The rows that a commit with a move leaves are those of the rename. -/
theorem rows_commitUpdate_move (catalog : Catalog) (address : Address) (key : Bytes) (record : Record)
    (move : Move) :
    (catalog.commitUpdate address key record (some move)).2.rows =
      (catalog.names.renameWith move.old move.new move.replaced [.put key record.encode]).2.rows := by
  rw [commitUpdate, onNames]
  cases catalog.names.renameWith move.old move.new move.replaced [.put key record.encode] with
  | mk answer names => rcases answer with fault | _ | _ <;> rfl

/-- A record is written in place. -/
theorem commitUpdate_none (h : catalog.Sound) {address : Address} {key : Key} (record : Record)
    (hkey : address.storedKey? catalog.rows = some key) (hconcrete : key.wildcard = false)
    (hfits : record.payload.Fits) :
    (catalog.commitUpdate address key.encode record none).1 = .ok record ∧
      (catalog.commitUpdate address key.encode record none).2.Sound ∧
      (catalog.commitUpdate address key.encode record none).2.contents =
        Contents.write catalog.contents address record :=
  ⟨rfl, store_insert h hkey hconcrete hfits⟩

/-- A record is written and its binding moved, when nothing is at the new address and beneath it. -/
theorem commitUpdate_move (h : catalog.Sound) {address : Address} {key : Key} (record : Record)
    (hkey : address.storedKey? catalog.rows = some key) (hconcrete : key.wildcard = false)
    (hfits : record.payload.Fits) {name : String} (hname : Address.isConcrete name = true)
    (hne : name ≠ address.path.leaf) {above : List UInt64}
    (habove : Address.trail? catalog.rows (address.levelSteps address.kinds) [] = some above)
    (hfree : catalog.contents (address.renamed name) = none)
    (hempty : ¬ Contents.Populated catalog.contents (address.renamed name)) {move : Move}
    (hmove : move = ⟨scopedName above address.kind address.path.leaf,
      scopedName above address.kind name,
      Names.boundId? catalog.rows (scopedName above address.kind name)⟩) :
    (catalog.commitUpdate address key.encode record (some move)).1 = .ok record ∧
      (catalog.commitUpdate address key.encode record (some move)).2.Sound ∧
      (catalog.commitUpdate address key.encode record (some move)).2.contents =
        Contents.move (Contents.write catalog.contents address record) address name := by
  subst hmove
  have hsingle := Address.single_of_storedKey? hkey hconcrete
  obtain ⟨above', id, habove', hid⟩ := Address.exists_bound hsingle hkey
  obtain rfl := Option.some.inj (habove'.symm.trans habove)
  -- The record is written first, and the binding is moved on top of that.
  obtain ⟨hwritten, hcontents⟩ := store_insert h hkey hconcrete hfits
  have hmidNames := Kept.get?_insert_nameKey catalog.rows key record.encode
  have hspares : SparesNames [.put key.encode record.encode] := by
    intro change hchange other
    rw [List.mem_singleton.mp hchange]
    exact Layout.encode_ne_nameKey key other
  have hscoped : scopedName above' address.kind address.path.leaf ≠
      scopedName above' address.kind name :=
    fun heq => hne (scopedName_injective heq).2.2.symm
  have hmid : Rows.batch? [.put key.encode record.encode] catalog.names.rows =
      some (catalog.rows.insert key.encode record.encode) := rfl
  have hreplaced : ∀ taken,
      Names.boundId? catalog.names.rows (scopedName above' address.kind name) = some taken →
      Names.boundId? catalog.rows (scopedName above' address.kind name) = some taken :=
    fun _ htaken => htaken
  obtain ⟨hanswer, hmoved, hfaithful⟩ := Names.renameWith_moves h.faithful h.kept.consistent
    hscoped hid hreplaced hspares hmid
  have hrebound : Address.Rebound (catalog.rows.insert key.encode record.encode) _ address name
      above' id :=
    ⟨hsingle, hname, (Address.trail?_congr hmidNames _ _).trans habove',
      (Names.boundId?_congr (hmidNames _)).trans hid, hmoved⟩
  have hnothing : ∀ other,
      other = address.renamed name ∨ (address.renamed name).Beneath other →
      other.record? (catalog.rows.insert key.encode record.encode) = none := fun other hother =>
    (congrFun hcontents other).trans (Contents.write_eq_none_of_renamed record hne hfree hempty hother)
  rw [commitUpdate]
  cases hrename : catalog.onNames (·.renameWith (scopedName above' address.kind address.path.leaf)
      (scopedName above' address.kind name)
      (Names.boundId? catalog.rows (scopedName above' address.kind name))
      [.put key.encode record.encode]) with
  | mk answer after =>
    obtain rfl : answer = .ok true := (congrArg Prod.fst hrename).symm.trans hanswer
    have hafter : after = { catalog with names := _ } := (congrArg Prod.snd hrename).symm
    have hkept := hwritten.kept.rebound hrebound hnothing
    have hrecords := hwritten.kept.record?_rebound hrebound hne hnothing
    rw [hafter]
    refine ⟨rfl, ⟨hkept, hfaithful⟩, funext fun other => ?_⟩
    rw [← hcontents]
    exact hrecords other

/-- Draw a version and write the new record of an entity. -/
def rewriteWith (catalog : Catalog) (address : Address) (key payload : Bytes) (move : Option Move) :
    Except Error Record × Catalog :=
  match catalog.nextVersion with
  | (.error fault, catalog) => (.error fault, catalog)
  | (.ok version, catalog) => catalog.commitUpdate address key ⟨version, payload⟩ move

/-- A rewrite fails only when no version can be drawn, if the commit does not fail. -/
theorem rewriteWith_eq (h : catalog.Sound) (address : Address) (key payload : Bytes)
    (move : Option Move) (written : Record → Contents)
    (hcommit : ∀ next : Catalog, next.Sound → next.rows = catalog.rows → ∀ version,
      (next.commitUpdate address key ⟨version, payload⟩ move).1 = .ok ⟨version, payload⟩ ∧
        (next.commitUpdate address key ⟨version, payload⟩ move).2.Sound ∧
        (next.commitUpdate address key ⟨version, payload⟩ move).2.contents =
          written ⟨version, payload⟩) :
    (catalog.rewriteWith address key payload move).2.Sound ∧
      (catalog.rewriteWith address key payload move).1 =
        catalog.nextVersion.1.map (fun version => ⟨version, payload⟩) ∧
      (∀ fault, (catalog.rewriteWith address key payload move).1 = .error fault →
        (catalog.rewriteWith address key payload move).2.contents = catalog.contents) ∧
      ∀ record, (catalog.rewriteWith address key payload move).1 = .ok record →
        (catalog.rewriteWith address key payload move).2.contents = written record := by
  have hnext := h.nextVersion
  have hrows : catalog.nextVersion.2.rows = catalog.rows :=
    congrArg Names.rows (nextVersion_names catalog)
  have hcommit := hcommit _ hnext hrows
  rw [rewriteWith]
  cases hversion : catalog.nextVersion with
  | mk drawn next =>
    rw [hversion] at hnext hrows hcommit
    cases drawn with
    | error fault =>
      exact ⟨hnext, rfl, fun _ _ => contents_congr hrows, fun _ hok => absurd hok (by simp)⟩
    | ok version =>
      obtain ⟨hanswer, hsound, hcontents⟩ := hcommit version
      refine ⟨hsound, hanswer, fun fault hfault => ?_, fun record hok => ?_⟩
      · exact absurd (hanswer.symm.trans hfault) (by simp)
      · rw [← Except.ok.inj (hanswer.symm.trans hok)]
        exact hcontents

/-- An update without another name plans no move. -/
theorem planUpdate_of_kept (catalog : Catalog) {address : Address} {update : Update}
    (h : update.newName = none ∨ update.newName = some address.path.leaf) :
    catalog.planUpdate address update = (.ok none, catalog) := by
  rcases h with hnone | hsame
  · rw [planUpdate, hnone]
  · rw [planUpdate, hsame]
    dsimp only
    rw [if_pos rfl]

/-- An update with another name plans a move. -/
theorem planUpdate_of_renamed (catalog : Catalog) {address : Address} {update : Update}
    {name : String} (hname : update.newName = some name) (hne : name ≠ address.path.leaf) :
    catalog.planUpdate address update =
      ((catalog.planMove address name).1.map some, (catalog.planMove address name).2) := by
  rw [planUpdate, hname]
  dsimp only
  rw [if_neg hne]

/-- Plan the move of an update and write the new record. -/
def reviseWith (catalog : Catalog) (address : Address) (key : Bytes) (update : Update) :
    Except Error Record × Catalog :=
  match catalog.planUpdate address update with
  | (.error fault, catalog) => (.error fault, catalog)
  | (.ok move, catalog) => catalog.rewriteWith address key update.payload move

section Revise

variable {address : Address} {key : Key} {update : Update}

/-- An update in place keeps its promise. -/
theorem reviseWith_kept (h : catalog.Sound) (hkey : address.storedKey? catalog.rows = some key)
    (hconcrete : key.wildcard = false) (hfits : update.payload.Fits)
    (hkept : update.newName = none ∨ update.newName = some address.path.leaf) :
    (catalog.reviseWith address key.encode update).2.Sound ∧
      (∀ fault, (catalog.reviseWith address key.encode update).1 = .error fault →
        (catalog.reviseWith address key.encode update).2.contents = catalog.contents) ∧
      RewriteMeets catalog.contents (catalog.reviseWith address key.encode update).2.contents
        catalog.nextVersion.1 address update
        (catalog.reviseWith address key.encode update).1 := by
  have hother : ∀ name, update.newName = some name → name ≠ address.path.leaf → False := by
    intro name hname hne
    rcases hkept with hnone | hsame
    · exact absurd (hnone.symm.trans hname) (by simp)
    · exact hne (Option.some.inj (hname.symm.trans hsame))
  rw [reviseWith, planUpdate_of_kept catalog hkept]
  obtain ⟨hsound, hanswer, hfailed, hwritten⟩ :=
    rewriteWith_eq h address key.encode update.payload none
      (Contents.write catalog.contents address) fun next hnext hrows version => by
        have hcommit := commitUpdate_none hnext ⟨version, update.payload⟩
          (by rw [hrows]; exact hkey) hconcrete hfits
        rwa [contents_congr hrows] at hcommit
  exact ⟨hsound, hfailed, fun _ => ⟨hanswer, hwritten⟩,
    fun name hname hne => (hother name hname hne).elim,
    fun name hname hne => (hother name hname hne).elim,
    fun name hname hne => (hother name hname hne).elim,
    fun name hname hne => (hother name hname hne).elim⟩

/-- An update with another name keeps its promise. -/
theorem reviseWith_renamed (h : catalog.Sound) (hkey : address.storedKey? catalog.rows = some key)
    (hconcrete : key.wildcard = false) (hfits : update.payload.Fits) {name : String}
    (hname : update.newName = some name) (hne : name ≠ address.path.leaf) :
    (catalog.reviseWith address key.encode update).2.Sound ∧
      (∀ fault, (catalog.reviseWith address key.encode update).1 = .error fault →
        (catalog.reviseWith address key.encode update).2.contents = catalog.contents) ∧
      RewriteMeets catalog.contents (catalog.reviseWith address key.encode update).2.contents
        catalog.nextVersion.1 address update
        (catalog.reviseWith address key.encode update).1 := by
  have hsingle := Address.single_of_storedKey? hkey hconcrete
  obtain ⟨above, -, habove, -⟩ := Address.exists_bound hsingle hkey
  obtain ⟨hlooked, hplanned⟩ := planMove_eq h hsingle habove name
  rw [reviseWith, planUpdate_of_renamed catalog hname hne]
  cases hplan : catalog.planMove address name with
  | mk answer after =>
    rw [hplan] at hlooked hplanned
    have hsound := hlooked.sound h
    by_cases hfree : Address.isConcrete name = true ∧
        catalog.contents (address.renamed name) = none ∧
        ¬ Contents.Populated catalog.contents (address.renamed name)
    · obtain ⟨hconcreteName, hnone, hempty⟩ := hfree
      obtain rfl := hplanned.free hconcreteName hnone hempty
      obtain ⟨hafter, hanswer, hfailed, hwritten⟩ :=
        rewriteWith_eq hsound address key.encode update.payload (some _)
          (fun record => Contents.move (Contents.write catalog.contents address record) address name)
          fun next hnext hrows version => by
            have hrows' : next.rows = catalog.rows := hrows.trans hlooked.rows
            have hcontents := contents_congr hrows'
            have hcommit := commitUpdate_move hnext ⟨version, update.payload⟩
              (by rw [hrows']; exact hkey) hconcrete hfits hconcreteName hne
              (by rw [hrows']; exact habove) (by rw [hcontents]; exact hnone)
              (by rw [hcontents]; exact hempty) rfl
            rwa [hcontents, hrows'] at hcommit
      rw [hlooked.nextVersion_fst] at hanswer
      rw [hlooked.contents] at hfailed
      refine ⟨hafter, hfailed, .of_newName hname hne (fun hbad => ?_) (fun htaken => ?_)
        (fun _ _ hpopulated => ?_) fun _ _ _ => ⟨hanswer, hwritten⟩⟩
      · exact absurd (hconcreteName.symm.trans hbad) (by simp)
      · exact absurd hnone htaken
      · exact absurd hpopulated hempty
    · obtain ⟨fault, rfl⟩ := hplanned.error_of_not_free hfree
      refine ⟨hsound, fun _ _ => hlooked.contents, .of_newName hname hne (fun hbad => ?_)
        (fun htaken => ?_) (fun hconcreteName hnone hpopulated => ?_)
        fun hconcreteName hnone hempty => absurd ⟨hconcreteName, hnone, hempty⟩ hfree⟩
      · exact congrArg Except.error (Except.error.inj (hplanned.badName hbad))
      · exact congrArg Except.error (Except.error.inj (hplanned.taken htaken))
      · exact congrArg Except.error
          (Except.error.inj (hplanned.occupied hconcreteName hnone hpopulated))

/-- An update of an entity that is there keeps its promise, given what the change makes of it. -/
theorem reviseWith_meets (h : catalog.Sound) (hkey : address.storedKey? catalog.rows = some key)
    (hconcrete : key.wildcard = false) (hfits : update.payload.Fits) :
    (catalog.reviseWith address key.encode update).2.Sound ∧
      (∀ fault, (catalog.reviseWith address key.encode update).1 = .error fault →
        (catalog.reviseWith address key.encode update).2.contents = catalog.contents) ∧
      RewriteMeets catalog.contents (catalog.reviseWith address key.encode update).2.contents
        catalog.nextVersion.1 address update
        (catalog.reviseWith address key.encode update).1 := by
  by_cases hkept : update.newName = none ∨ update.newName = some address.path.leaf
  · exact reviseWith_kept h hkey hconcrete hfits hkept
  · obtain ⟨hsome, hother⟩ := not_or.mp hkept
    obtain ⟨name, hname⟩ := Option.ne_none_iff_exists'.mp hsome
    exact reviseWith_renamed h hkey hconcrete hfits hname
      fun heq => hother (hname.trans (congrArg some heq))

end Revise

/-- An update that fails the checks does nothing. -/
theorem update_of_error {address : Address} {fault : Error} (catalog : Catalog)
    (change : Record → Except Error Update) (hchecked : address.checked = .error fault) :
    catalog.update address change = (.error fault, catalog) := by
  rcases Address.checked_eq_error hchecked with hsingle | ⟨hsingle, hlevels⟩
  · rw [update, hsingle]
  · rw [update, hsingle]
    dsimp only
    rw [load_of_error catalog hlevels]

/-- Where there is no entity there is nothing to update. -/
theorem update_of_none (h : catalog.Sound) {address : Address}
    (change : Record → Except Error Update) (hsingle : address.Single)
    (hrecord : catalog.contents address = none) :
    (catalog.update address change).1 = .error (.noSuchEntity address.path) ∧
      catalog.Looked (catalog.update address change).2 := by
  obtain ⟨hanswer, hlooked⟩ := load_of_none h hsingle hrecord
  rw [update, hsingle.single_path]
  dsimp only
  cases hload : catalog.load address with
  | mk answer after =>
    rw [hload] at hanswer hlooked
    obtain rfl := hanswer
    exact ⟨rfl, hlooked⟩

/-- An entity is loaded and then revised by what the change makes of it. -/
theorem update_of_some (h : catalog.Sound) {address : Address}
    (change : Record → Except Error Update) {current : Record}
    (hrecord : catalog.contents address = some current) :
    ∃ (key : Key) (after : Catalog), catalog.Looked after ∧
      address.storedKey? after.rows = some key ∧ key.wildcard = false ∧
      catalog.update address change =
        match change current with
        | .error fault => (.error fault, after)
        | .ok update => after.reviseWith address key.encode update := by
  obtain ⟨key, hkey, hconcrete, hanswer, hlooked⟩ := load_of_some h hrecord
  rw [update, (h.contents_single hrecord).single_path]
  dsimp only
  cases hload : catalog.load address with
  | mk answer after =>
    rw [hload] at hanswer hlooked
    obtain rfl := hanswer
    rw [← hlooked.rows] at hkey
    exact ⟨key, after, hlooked, hkey, hconcrete, rfl⟩

/-- An update keeps its promise. -/
theorem update_meets (h : catalog.Sound) (address : Address) {change : Record → Except Error Update}
    (hfits : ∀ record update, change record = .ok update → update.payload.Fits) :
    (catalog.update address change).2.Sound ∧
      UpdateMeets catalog.contents (catalog.update address change).2.contents
        catalog.nextVersion.1 address change (catalog.update address change).1 := by
  cases hrecord : catalog.contents address with
  | none =>
    have hnothing : ∀ current, catalog.contents address ≠ some current :=
      fun current hsome => absurd (hrecord.symm.trans hsome) (by simp)
    cases hchecked : address.checked with
    | error fault =>
      rw [update_of_error catalog change hchecked]
      exact ⟨h, fun _ _ => rfl, fun _ => by rw [hchecked]; rfl,
        fun current _ hsome => absurd hsome (hnothing current),
        fun current _ hsome => absurd hsome (hnothing current)⟩
    | ok =>
      have hsingle := (address.checked_eq_ok_iff).mp hchecked
      obtain ⟨hanswer, hlooked⟩ := update_of_none h change hsingle hrecord
      exact ⟨hlooked.sound h, fun _ _ => hlooked.contents,
        fun _ => by rw [hanswer, hchecked]; rfl,
        fun current _ hsome => absurd hsome (hnothing current),
        fun current _ hsome => absurd hsome (hnothing current)⟩
  | some current =>
    have hpresent : catalog.contents address ≠ none := by simp [hrecord]
    have hcurrent {other : Record} (hother : catalog.contents address = some other) :
        other = current := Option.some.inj (hother.symm.trans hrecord)
    obtain ⟨key, after, hlooked, hkey, hconcrete, hupdate⟩ := update_of_some h change hrecord
    have hsound := hlooked.sound h
    rw [hupdate]
    cases hchange : change current with
    | error fault =>
      refine ⟨hsound, fun _ _ => hlooked.contents, fun hnone => absurd hnone hpresent,
        fun other fault' hother hfault => ?_, fun other update hother hok => ?_⟩
      · rw [hcurrent hother, hchange] at hfault
        exact congrArg Except.error (Except.error.inj hfault)
      · rw [hcurrent hother, hchange] at hok
        exact absurd hok (by simp)
    | ok update =>
      obtain ⟨hafter, hfailed, hmeets⟩ :=
        reviseWith_meets hsound hkey hconcrete (hfits current update hchange)
      rw [hlooked.contents] at hfailed
      rw [hlooked.contents, hlooked.nextVersion_fst] at hmeets
      refine ⟨hafter, hfailed, fun hnone => absurd hnone hpresent,
        fun other fault hother hfault => ?_, fun other update' hother hok => ?_⟩
      · rw [hcurrent hother, hchange] at hfault
        exact absurd hfault (by simp)
      · rw [hcurrent hother, hchange] at hok
        obtain rfl := Except.ok.inj hok
        exact hmeets

end Catalog

end EntityCatalog
