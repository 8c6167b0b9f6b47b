import EntityCatalog.Proofs.Rows.Scan
import EntityCatalog.Rows.Batch

/-!
# One selection of rows behind every operation on a stem

A scan stops at the first key that does not extend the stem, while the last row and the removal of a
stem go by the interval of keys up to its successor. Both select the rows whose keys extend the stem. A
visitor is shown them in order, up to and including the first one after which it does not go on.
-/

namespace EntityCatalog.Rows

/-- The rows whose keys extend the stem, in order. -/
def extending (rows : Rows) (stem : Bytes) : List Row :=
  rows.toList.filter fun row => stem.isPrefixOf row.1

/-- A row is chosen exactly if it is there and its key extends the stem. -/
theorem mem_extending_iff (rows : Rows) (stem : Bytes) (row : Row) :
    row ∈ rows.extending stem ↔ row ∈ rows.toList ∧ stem <+: row.1 := by
  rw [extending, List.mem_filter, List.isPrefixOf_iff_prefix]

/-- The chosen rows are in strictly increasing order of keys. -/
theorem extending_keysIncrease (rows : Rows) (stem : Bytes) : KeysIncrease (rows.extending stem) :=
  rows.increasing.sublist List.filter_sublist

/-- Removing a stem keeps the other rows, in order. -/
theorem toList_eraseStem (rows : Rows) (stem : Bytes) :
    (rows.eraseStem stem).toList =
      rows.toList.filter fun row => decide (row ∉ rows.extending stem) := by
  refine List.filter_congr fun row hrow => Bool.eq_iff_iff.mpr ?_
  rw [decide_eq_true_iff, mem_extending_iff, Bool.not_eq_true', ← Bool.not_eq_true, inStem_iff]
  exact ⟨fun hout hmem => hout hmem.2, fun hout hstem => hout ⟨hrow, hstem⟩⟩

section Visitors

variable {σ : Type}

/-- The state of a visitor after it was shown some rows. -/
def stateAfter (visit : σ → Row → Bool × σ) (state : σ) (shown : List Row) : σ :=
  shown.foldl (fun state row => (visit state row).2) state

/-- Whether a visitor goes on after some rows and one more. -/
def goesOn (visit : σ → Row → Bool × σ) (state : σ) (before : List Row) (row : Row) : Bool :=
  (visit (stateAfter visit state before) row).1

/-- Some rows are those of a list that a visitor is shown: the visitor goes on after each of them that
is not the last, and they end with the list or with a row after which it does not go on. -/
structure ShownTo (visit : σ → Row → Bool × σ) (state : σ) (list shown : List Row) : Prop where
  front : shown <+: list
  further : ∀ before row, before ++ [row] <+: shown → before ++ [row] ≠ shown →
    goesOn visit state before row = true
  ended : shown = list ∨
    ∃ before row, shown = before ++ [row] ∧ goesOn visit state before row = false

variable {visit : σ → Row → Bool × σ} {state next : σ} {row : Row} {rest shown : List Row}

/-- A visitor who does not go on has been shown one row. -/
theorem showRows_cons_of_last (hvisit : visit state row = (false, next)) :
    showRows visit state (row :: rest) = (1, next) := by
  rw [showRows, hvisit]

/-- A visitor who goes on is shown the rows that are left. -/
theorem showRows_cons_of_goOn (hvisit : visit state row = (true, next)) :
    showRows visit state (row :: rest) =
      ((showRows visit next rest).1 + 1, (showRows visit next rest).2) := by
  rw [showRows, hvisit]

/-- Nothing is shown of an empty list. -/
theorem ShownTo.nil : ShownTo visit state [] [] where
  front := List.prefix_refl _
  further before row hbefore _ := by simp at hbefore
  ended := Or.inl rfl

/-- A row after which the visitor does not go on is the only one. -/
theorem ShownTo.single (hvisit : visit state row = (false, next)) :
    ShownTo visit state (row :: rest) [row] where
  front := by simp
  further before other hbefore hne := by
    cases before with
    | nil => simp_all
    | cons first before => simp at hbefore
  ended := Or.inr ⟨[], row, rfl, congrArg Prod.fst hvisit⟩

/-- After a row with which it goes on, a visitor is shown the others from its new state. -/
theorem ShownTo.cons (hvisit : visit state row = (true, next))
    (h : ShownTo visit next rest shown) : ShownTo visit state (row :: rest) (row :: shown) := by
  have hlater (before : List Row) (other : Row) :
      goesOn visit state (row :: before) other = goesOn visit next before other := by
    rw [goesOn, goesOn, stateAfter, List.foldl_cons, hvisit, stateAfter]
  refine ⟨(List.prefix_cons_inj row).mpr h.front, fun before other hbefore hne => ?_, ?_⟩
  · cases before with
    | nil =>
      obtain rfl : other = row := by simpa using hbefore
      exact congrArg Prod.fst hvisit
    | cons first before =>
      obtain ⟨rfl, hrest⟩ := List.cons_prefix_cons.mp hbefore
      rw [hlater]
      exact h.further before other hrest fun heq => hne (congrArg _ heq)
  · rcases h.ended with rfl | ⟨before, other, rfl, hstop⟩
    · exact Or.inl rfl
    · exact Or.inr ⟨row :: before, other, rfl, (hlater before other).trans hstop⟩

/-- A visitor is shown rows of a list, and what is told of it is their number and its state after them. -/
theorem exists_shownTo (visit : σ → Row → Bool × σ) (state : σ) (list : List Row) :
    ∃ shown, ShownTo visit state list shown ∧
      showRows visit state list = (shown.length, stateAfter visit state shown) := by
  induction list generalizing state with
  | nil => exact ⟨[], .nil, rfl⟩
  | cons row rest ih =>
    cases hvisit : visit state row with
    | mk goOn next =>
      have hnext (shown : List Row) :
          stateAfter visit state (row :: shown) = stateAfter visit next shown := by
        rw [stateAfter, List.foldl_cons, hvisit, stateAfter]
      cases goOn with
      | false =>
        refine ⟨[row], .single hvisit, ?_⟩
        rw [showRows_cons_of_last hvisit, hnext]
        rfl
      | true =>
        obtain ⟨shown, hshown, hresult⟩ := ih next
        refine ⟨row :: shown, .cons hvisit hshown, ?_⟩
        rw [showRows_cons_of_goOn hvisit, hresult, hnext, List.length_cons]

end Visitors

/-- The visitor that gathers rows up to a limit is shown the first ones. -/
theorem showRows_gather_limit {limit : Nat} (gathered list : List Row) (h : gathered.length < limit) :
    (showRows (gather fun gathered _ => decide (gathered.length + 1 < limit)) gathered list).2 =
      gathered ++ list.take (limit - gathered.length) := by
  induction list generalizing gathered with
  | nil => simp [showRows]
  | cons row rest ih =>
    have hlength : (gathered ++ [row]).length = gathered.length + 1 := by simp
    by_cases hroom : gathered.length + 1 < limit
    · have hvisit : gather (fun gathered _ => decide (gathered.length + 1 < limit)) gathered row =
          (true, gathered ++ [row]) := Prod.ext (decide_eq_true hroom) rfl
      have hleft : limit - gathered.length = limit - (gathered.length + 1) + 1 := by omega
      rw [showRows_cons_of_goOn hvisit, ih _ (hlength ▸ hroom), hlength, hleft, List.take_succ_cons,
        List.append_assoc, List.singleton_append]
    · have hvisit : gather (fun gathered _ => decide (gathered.length + 1 < limit)) gathered row =
          (false, gathered ++ [row]) := Prod.ext (decide_eq_false hroom) rfl
      have hleft : limit - gathered.length = 1 := by omega
      rw [showRows_cons_of_last hvisit, hleft]
      rfl

/-- The visitor that gathers rows as long as they are wanted is shown the wanted ones at the front and
the row that follows them. -/
theorem showRows_gather_wanted (wanted : Row → Bool) (gathered list : List Row) :
    showRows (gather fun _ row => wanted row) gathered list =
      ((list.takeWhile wanted ++ (list.dropWhile wanted).take 1).length,
        gathered ++ (list.takeWhile wanted ++ (list.dropWhile wanted).take 1)) := by
  induction list generalizing gathered with
  | nil => simp [showRows]
  | cons row rest ih =>
    have hvisit : gather (fun _ row => wanted row) gathered row = (wanted row, gathered ++ [row]) := rfl
    cases hwanted : wanted row with
    | true =>
      rw [hwanted] at hvisit
      rw [showRows_cons_of_goOn hvisit, ih, List.takeWhile_cons_of_pos hwanted,
        List.dropWhile_cons_of_pos hwanted]
      simp
    | false =>
      rw [hwanted] at hvisit
      have hnot : ¬ wanted row = true := Bool.eq_false_iff.mp hwanted
      rw [showRows_cons_of_last hvisit, List.takeWhile_cons_of_neg hnot,
        List.dropWhile_cons_of_neg hnot]
      rfl

/-- A limited scan gives the first rows of the scan. -/
theorem scanLimit_eq_take (rows : Rows) (stem : Bytes) (limit : Nat) :
    rows.scanLimit stem limit = (rows.scan stem).take limit := by
  rw [scanLimit]
  split
  · rename_i hzero
    rw [hzero, List.take_zero]
  · rename_i hpos
    exact showRows_gather_limit [] (rows.scan stem) (Nat.pos_of_ne_zero hpos)

/-- Every operation on a stem works on the rows whose keys extend it, in the order of their keys. A scan
gives all of them, a limited scan the first ones, and the last row is the last of them. A visitor is
shown them up to and including the first one after which it does not go on, and is told how many these
were. Removing the stem, alone or in a batch, takes them away and keeps the others, and counts them. -/
theorem stem_operations_agree (rows : Rows) (stem : Bytes) :
    let found := rows.extending stem
    (KeysIncrease found ∧ ∀ row, row ∈ found ↔ row ∈ rows.toList ∧ stem <+: row.1) ∧
    rows.scan stem = found ∧
    (∀ limit, rows.scanLimit stem limit = found.take limit) ∧
    (∀ (σ : Type) (visit : σ → Row → Bool × σ) (state : σ), ∃ shown,
      ShownTo visit state found shown ∧
      rows.scanWith stem visit state = (shown.length, stateAfter visit state shown)) ∧
    (∀ wanted, rows.visited stem wanted =
      found.takeWhile wanted ++ (found.dropWhile wanted).take 1) ∧
    (rows.last? stem = found.getLast? ∧ (rows.last? stem = none ↔ found = [])) ∧
    (rows.eraseStem stem).toList = rows.toList.filter (fun row => decide (row ∉ found)) ∧
    rows.batch [.eraseStem stem] = (true, rows.eraseStem stem) ∧
    rows.countStem stem = found.length ∧
    rows.deleteStem stem = (found.length, rows.eraseStem stem) := by
  have hscan : rows.scan stem = rows.extending stem := scan_eq_filter rows stem
  have hlast : rows.last? stem = (rows.extending stem).getLast? := by
    rw [last?_eq_getLast?_scan, hscan]
  have hcount : rows.countStem stem = (rows.extending stem).length := by
    rw [countStem, filter_inStem, hscan]
  refine ⟨⟨rows.extending_keysIncrease stem, rows.mem_extending_iff stem⟩, hscan, fun limit => ?_,
    fun σ visit state => ?_, fun wanted => ?_, ⟨hlast, ?_⟩, rows.toList_eraseStem stem, rfl, hcount, ?_⟩
  · rw [scanLimit_eq_take, hscan]
  · rw [scanWith, hscan]
    exact exists_shownTo visit state (rows.extending stem)
  · rw [visited, scanWith, hscan, showRows_gather_wanted, List.nil_append]
  · rw [hlast, List.getLast?_eq_none_iff]
  · rw [deleteStem, transact, hcount]

/-- The interval of a stem that ends with the greatest byte ends where the byte before it is one more. -/
example : (ofList [([7], [0]), ([7, 255], [1]), ([7, 255, 255], [2]), ([8], [3])]).last? [7, 255] =
    some ([7, 255, 255], [2]) := by decide

end EntityCatalog.Rows
