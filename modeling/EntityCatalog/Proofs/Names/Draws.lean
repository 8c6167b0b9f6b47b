import EntityCatalog.Proofs.Names.Allotment

/-!
# Which draw is allotted

A name that is not bound gets the first of the next eight draws whose id has no id row. Each draw before
it is a batch that was abandoned, so it left no trace in the rows and the name as free as it was. When
all eight ids are taken nothing is left of the attempt but the draws.
-/

namespace EntityCatalog

namespace IdSource

/-- The source after a number of draws. -/
def skip (source : IdSource) (count : Nat) : IdSource := { source with drawn := source.drawn + count }

/-- Skipping no draw leaves the source as it is. -/
@[simp] theorem skip_zero (source : IdSource) : source.skip 0 = source := rfl

/-- A draw and those skipped after it are all skipped. -/
theorem skip_advance (source : IdSource) (count : Nat) :
    source.advance.skip count = source.skip (count + 1) := by
  rw [skip, skip, advance, Nat.add_assoc, Nat.add_comm 1]

end IdSource

open Names (Reserved)

namespace Ledger

/-- Draws of ids that are taken change nothing but the source. -/
theorem allocate_of_taken (name : String) (rows : Rows) (ids : IdSource) {count : Nat}
    (htaken : ∀ k < count, Reserved rows (ids.skip k).peek) (attempts : Nat) :
    allocate name (count + attempts) ⟨rows, ids⟩ = allocate name attempts ⟨rows, ids.skip count⟩ := by
  induction count generalizing ids with
  | zero => rw [Nat.zero_add, IdSource.skip_zero]
  | succ count ih =>
    have hfirst : Reserved rows ids.peek := htaken 0 (Nat.succ_pos count)
    have hrest : ∀ k < count, Reserved rows (ids.advance.skip k).peek := by
      intro k hk
      rw [IdSource.skip_advance]
      exact htaken (k + 1) (Nat.succ_lt_succ hk)
    -- The batch of a taken id is abandoned, so the next draw meets the same rows.
    rw [Nat.add_right_comm, allocate, Names.batch_binding, if_neg fun hboth => hfirst hboth.2,
      ← IdSource.skip_advance]
    exact ih ids.advance hrest

/-- A draw of an id that is free binds a name that is. -/
theorem allocate_of_free {name : String} {rows : Rows} {ids : IdSource}
    (hname : rows.get? (Layout.nameKey name) = none) (hid : ¬ Reserved rows ids.peek)
    (attempts : Nat) :
    allocate name (attempts + 1) ⟨rows, ids⟩ =
      (.ok ids.peek, ⟨Names.withBinding rows name ids.peek, ids.advance⟩) := by
  rw [allocate, Names.batch_binding, if_pos ⟨hname, not_not.mp hid⟩]

end Ledger

namespace Names

variable {names : Names}

/-- The registry allots ids to a name that is not bound as the ledger does. -/
theorem resolve_allocate (h : names.Faithful) {name : String}
    (hname : names.rows.get? (Layout.nameKey name) = none) :
    Transparent (names.resolve name)
      (Ledger.allocate name maxAttempts ⟨names.rows, names.ids⟩) := by
  have hstored : storedId? names.rows name = .ok none := (storedId?_eq_none_iff _ _).mpr hname
  have hresolve := resolve_transparent h name
  rwa [ledger, Ledger.resolve, hstored] at hresolve

/-- A name that is not bound gets the first id among the next draws that has no row. -/
theorem resolve_of_firstFree (h : names.Faithful) {name : String}
    (hname : names.rows.get? (Layout.nameKey name) = none) {n : Nat} (hn : n < maxAttempts)
    (htaken : ∀ k < n, Reserved names.rows (names.ids.skip k).peek)
    (hfree : ¬ Reserved names.rows (names.ids.skip n).peek) :
    (names.resolve name).1 = .ok (names.ids.skip n).peek ∧
      (names.resolve name).2.ids = names.ids.skip (n + 1) ∧
      (names.resolve name).2.rows = withBinding names.rows name (names.ids.skip n).peek := by
  obtain ⟨attempts, hattempts⟩ := Nat.exists_eq_add_of_lt hn
  have hallocate := Ledger.allocate_of_taken name names.rows names.ids htaken (attempts + 1)
  rw [Ledger.allocate_of_free hname hfree] at hallocate
  have hresolve := resolve_allocate h hname
  rw [hattempts, Nat.add_assoc, hallocate] at hresolve
  exact ⟨hresolve.answer, congrArg Ledger.ids hresolve.ledger, congrArg Ledger.rows hresolve.ledger⟩

/-- A name that is not bound stays so when all ids that may be drawn for it have rows. -/
theorem resolve_of_allTaken (h : names.Faithful) {name : String}
    (hname : names.rows.get? (Layout.nameKey name) = none)
    (htaken : ∀ k < maxAttempts, Reserved names.rows (names.ids.skip k).peek) :
    (names.resolve name).1 = .error (.internal (.idsExhausted name maxAttempts)) ∧
      (names.resolve name).2.ids = names.ids.skip maxAttempts ∧
      (names.resolve name).2.rows = names.rows ∧ (names.resolve name).2.Faithful := by
  have hallocate := Ledger.allocate_of_taken name names.rows names.ids htaken 0
  have hresolve := resolve_allocate h hname
  rw [Nat.add_zero] at hallocate
  rw [hallocate] at hresolve
  exact ⟨hresolve.answer, congrArg Ledger.ids hresolve.ledger, congrArg Ledger.rows hresolve.ledger,
    hresolve.faithful⟩

/-- After any events since there were no rows, and whatever ids the source gives, resolving a name that
is bound gives its id, draws none and changes no row. For a name that is not bound ids are drawn until
one of them has no row, which is allotted to the name in two new rows. If the first eight draws all have
rows the resolution fails, and the name is as free as before. -/
theorem resolve_takes_first_free (config : Config) (ids : IdSource) (events : List Event)
    (name : String) :
    let names := happenAll events (.create config .empty ids)
    let answer := (names.resolve name).1
    let after := (names.resolve name).2
    (∀ bytes, names.rows.get? (Layout.nameKey name) = some bytes →
      ∃ id, bytes = wordBytes id ∧ answer = .ok id ∧ after.ids = names.ids ∧
        after.rows = names.rows) ∧
    (names.rows.get? (Layout.nameKey name) = none →
      (∀ n < 8, (∀ k < n, Reserved names.rows (names.ids.skip k).peek) →
        ¬ Reserved names.rows (names.ids.skip n).peek →
        answer = .ok (names.ids.skip n).peek ∧ after.ids = names.ids.skip (n + 1) ∧
          ∀ key, after.rows.get? key =
            if key = Layout.nameKey name then some (wordBytes (names.ids.skip n).peek)
            else if key = Layout.idKey (names.ids.skip n).peek then some (Text.utf8 name)
            else names.rows.get? key) ∧
      ((∀ k < 8, Reserved names.rows (names.ids.skip k).peek) →
        answer = .error (.internal (.idsExhausted name 8)) ∧ after.ids = names.ids.skip 8 ∧
          after.rows = names.rows ∧ (after.find? name).1 = .ok none)) := by
  intro names answer after
  have h : names.Orderly := (Orderly.create config .empty ids).happenAll events
  refine ⟨fun bytes hbytes => ?_, fun hname => ⟨fun n hn htaken hfree => ?_, fun htaken => ?_⟩⟩
  · obtain ⟨id, rfl⟩ := h.consistent.legible name bytes hbytes
    obtain ⟨hanswer, hread⟩ :=
      resolve_of_bound h.faithful h.consistent ((boundId?_eq_some_iff _ _ _).mpr hbytes)
    exact ⟨id, rfl, hanswer, hread.ids, hread.rows⟩
  · obtain ⟨hanswer, hids, hrows⟩ := resolve_of_firstFree h.faithful hname hn htaken hfree
    refine ⟨hanswer, hids, fun key => ?_⟩
    rw [hrows, get?_withBinding]
    simp only [eq_comm (a := key)]
    by_cases hkey : Layout.nameKey name = key
    · have hne : Layout.idKey (names.ids.skip n).peek ≠ key :=
        fun heq => Layout.nameKey_ne_idKey name _ (hkey.trans heq.symm)
      rw [if_neg hne, if_pos hkey, if_pos hkey]
    · rw [if_neg hkey, if_neg hkey]
  · obtain ⟨hanswer, hids, hrows, hfaithful⟩ := resolve_of_allTaken h.faithful hname htaken
    have hconsistent : Consistent after.rows := hrows ▸ h.consistent
    have hunbound : boundId? after.rows name = none := by
      rw [hconsistent.boundId?_eq_none_iff, hrows]
      exact hname
    exact ⟨hanswer, hids, hrows, by rw [find?_eq hfaithful hconsistent, hunbound]⟩

/-- A registry with one name, after which its source goes on with the given ids. -/
def oneNamed (ids : List UInt64) : Names :=
  happenAll [.serve (.resolve "a") trivial] (.create {} .empty (.listed (5 :: ids)))

/-- The third draw is the first free one, and without one the attempts run out. -/
theorem resolve_takes_first_free_oneNamed :
    ((oneNamed [5, 5, 7]).resolve "a").1 = .ok 5 ∧ ((oneNamed [5, 5, 7]).resolve "b").1 = .ok 7 ∧
      ((oneNamed [5, 5, 7]).resolve "b").2.ids = (oneNamed [5, 5, 7]).ids.skip 3 ∧
      ((oneNamed []).resolve "b").1 = .error (.internal (.idsExhausted "b" 8)) := by
  have htaken : ∀ k < 2, Reserved (oneNamed [5, 5, 7]).rows ((oneNamed [5, 5, 7]).ids.skip k).peek := by
    intro k hk
    have hrow : (oneNamed [5, 5, 7]).rows.get? (Layout.idKey 5) = some (Text.utf8 "a") := rfl
    have hpeek : ∀ k : Fin 2, ((oneNamed [5, 5, 7]).ids.skip k).peek = 5 := by decide
    rw [hpeek ⟨k, hk⟩, Reserved, hrow]
    exact Option.some_ne_none _
  have hfree : ¬ Reserved (oneNamed [5, 5, 7]).rows ((oneNamed [5, 5, 7]).ids.skip 2).peek := by
    have hnone : (oneNamed [5, 5, 7]).rows.get? (Layout.idKey 7) = none := rfl
    exact not_not_intro hnone
  have hstuck : ∀ k < 8, Reserved (oneNamed []).rows ((oneNamed []).ids.skip k).peek := by
    intro k hk
    have hrow : (oneNamed []).rows.get? (Layout.idKey 5) = some (Text.utf8 "a") := rfl
    have hpeek : ∀ k : Fin 8, ((oneNamed []).ids.skip k).peek = 5 := by decide
    rw [hpeek ⟨k, hk⟩, Reserved, hrow]
    exact Option.some_ne_none _
  obtain ⟨hbound, -⟩ := resolve_takes_first_free {} (.listed [5, 5, 5, 7])
    [.serve (.resolve "a") trivial] "a"
  obtain ⟨id, hid, hanswer, -⟩ := hbound (wordBytes 5) rfl
  obtain rfl := wordBytes_injective hid
  obtain ⟨-, hunbound⟩ := resolve_takes_first_free {} (.listed [5, 5, 5, 7])
    [.serve (.resolve "a") trivial] "b"
  obtain ⟨hfirst, hdraws, -⟩ := (hunbound rfl).1 2 (by decide) htaken hfree
  obtain ⟨-, hnone⟩ := resolve_takes_first_free {} (.listed [5]) [.serve (.resolve "a") trivial] "b"
  exact ⟨hanswer, hfirst, hdraws, ((hnone rfl).2 hstuck).1⟩

end Names

end EntityCatalog
