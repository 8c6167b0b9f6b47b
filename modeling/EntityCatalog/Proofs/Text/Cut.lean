import EntityCatalog.Text.Cut

/-!
# Where a text is cut

A start that is taken off leaves what follows it. The first mark of a text is the one with none before it. The
pieces between marks are those into which a list is split; one of them is empty exactly where the text is
empty, a mark starts or ends it, or two marks meet.
-/

namespace EntityCatalog.Text

/-- Taking a start off a text that begins with it leaves the rest. -/
theorem after?_eq_some_iff (start chars rest : List Char) :
    after? start chars = some rest ↔ chars = start ++ rest := by
  induction start generalizing chars with
  | nil => exact Option.some_inj
  | cons a start ih =>
    cases chars with
    | nil => simp [after?]
    | cons c chars =>
      rw [after?, List.cons_append, List.cons.injEq, eq_comm (a := c)]
      split
      · rename_i heq
        rw [ih, and_iff_right heq]
      · rename_i hne
        simp [hne]

/-! ## Cutting at the first mark -/

/-- A text is cut at a mark that has none before it. -/
theorem cutAt?_eq_some_iff (mark : Char) (chars before after : List Char) :
    cutAt? mark chars = some (before, after) ↔ chars = before ++ mark :: after ∧ mark ∉ before := by
  induction chars generalizing before with
  | nil => simp [cutAt?]
  | cons c rest ih =>
    unfold cutAt?
    by_cases hc : c = mark
    · cases before with
      | nil => simp [hc]
      | cons b before =>
        rw [if_pos hc]
        refine iff_of_false (by simp) ?_
        rintro ⟨heq, hfree⟩
        have hb : c = b := (List.cons.inj heq).1
        exact hfree (hc ▸ hb ▸ List.mem_cons_self)
    · cases before with
      | nil => simp [hc]
      | cons b before =>
        have hmap : ((cutAt? mark rest).map fun parts => (c :: parts.1, parts.2)) =
            some (b :: before, after) ↔ c = b ∧ cutAt? mark rest = some (before, after) := by
          cases cutAt? mark rest <;> simp [and_assoc, Prod.ext_iff]
        rw [if_neg hc, hmap, ih, List.cons_append, List.cons.injEq, List.mem_cons, not_or, and_assoc]
        constructor
        · rintro ⟨rfl, hrest, hfree⟩
          exact ⟨rfl, hrest, Ne.symm hc, hfree⟩
        · rintro ⟨rfl, hrest, -, hfree⟩
          exact ⟨rfl, hrest, hfree⟩

/-- A text without a mark is not cut. -/
theorem cutAt?_eq_none_iff (mark : Char) (chars : List Char) :
    cutAt? mark chars = none ↔ mark ∉ chars := by
  induction chars with
  | nil => simp [cutAt?]
  | cons c rest ih =>
    unfold cutAt?
    by_cases hc : c = mark
    · simp [hc]
    · simp [hc, Ne.symm hc, ih]

/-! ## Cutting at every mark -/

/-- The pieces of a text are those into which a list is split. -/
theorem pieces_eq_splitOn (mark : Char) (chars : List Char) :
    pieces mark chars = chars.splitOn mark := by
  induction chars with
  | nil => rfl
  | cons c rest ih =>
    rw [pieces, ih, List.splitOn_cons_eq_if_modifyHead]
    cases h : rest.splitOn mark with
    | nil => exact absurd h (List.splitOn_ne_nil mark rest)
    | cons piece more => by_cases hc : c = mark <;> simp [hc]

/-- No piece holds the character at which a text is cut. -/
theorem not_mem_of_mem_splitOn {mark : Char} {chars piece : List Char}
    (h : piece ∈ chars.splitOn mark) : mark ∉ piece := by
  induction chars generalizing piece with
  | nil => simp_all
  | cons c rest ih =>
    rw [List.splitOn_cons_eq_if_modifyHead] at h
    cases hrest : rest.splitOn mark with
    | nil => exact absurd hrest (List.splitOn_ne_nil mark rest)
    | cons first more =>
      rw [hrest] at h ih
      by_cases hc : c = mark
      · simp only [hc, beq_self_eq_true, if_true, List.mem_cons] at h
        rcases h with rfl | hmem
        · exact List.not_mem_nil
        · exact ih (List.mem_cons.mpr hmem)
      · simp only [beq_iff_eq, hc, if_false, List.modifyHead_cons, List.mem_cons] at h
        rcases h with rfl | hmem
        · exact List.not_mem_cons_of_ne_of_not_mem (Ne.symm hc) (ih List.mem_cons_self)
        · exact ih (List.mem_cons_of_mem _ hmem)

/-! ## Empty pieces -/

/-- The first piece is empty in the empty text and before a mark that starts the text. -/
theorem head?_splitOn_eq_nil_iff (mark : Char) (chars : List Char) :
    (chars.splitOn mark).head? = some [] ↔ chars = [] ∨ [mark] <+: chars := by
  cases chars with
  | nil => simp
  | cons c rest =>
    rw [List.splitOn_cons_eq_if_modifyHead]
    by_cases hc : c = mark
    · simp [hc]
    · simp [hc, Ne.symm hc, List.head?_modifyHead]

/-- The empty text is among others if it is the first or among the rest. -/
theorem nil_mem_iff_head? (texts : List (List Char)) :
    [] ∈ texts ↔ texts.head? = some [] ∨ [] ∈ texts.tail := by
  cases texts with
  | nil => simp
  | cons first more => simp [eq_comm]

/-- A later piece is empty after a mark that ends the text and between two marks that meet. -/
theorem nil_mem_tail_splitOn_iff (mark : Char) (chars : List Char) :
    [] ∈ (chars.splitOn mark).tail ↔ [mark] <:+ chars ∨ [mark, mark] <:+: chars := by
  induction chars with
  | nil => simp
  | cons c rest ih =>
    rw [List.splitOn_cons_eq_if_modifyHead, List.suffix_cons_iff, List.infix_cons_iff]
    by_cases hc : c = mark
    · simp only [hc, beq_self_eq_true, if_true, List.tail_cons, nil_mem_iff_head?,
        head?_splitOn_eq_nil_iff, ih, List.cons_prefix_cons, List.cons.injEq, true_and,
        eq_comm (a := []) (b := rest)]
      exact or_or_or_comm
    · simp [hc, Ne.symm hc, List.tail_modifyHead, ih]

/-- A piece is empty in the empty text, before a mark that starts the text, after one that ends it and
between two marks that meet. -/
theorem nil_mem_splitOn_iff (mark : Char) (chars : List Char) :
    [] ∈ chars.splitOn mark ↔
      chars = [] ∨ [mark] <+: chars ∨ [mark] <:+ chars ∨ [mark, mark] <:+: chars := by
  rw [nil_mem_iff_head?, head?_splitOn_eq_nil_iff, nil_mem_tail_splitOn_iff, or_assoc]

end EntityCatalog.Text
