import EntityCatalog.Proofs.Bytes.Word

/-!
# The order of bytes and of words

Byte strings are ordered from the front. Of strings of one length, those of the lower naturals come
first, so words written most significant byte first are in their numeric order.
-/

namespace EntityCatalog

/-- Lists with the same front are ordered by what follows it. -/
theorem append_lt_append_iff {α : Type} [LT α] [Std.Irrefl fun a b : α => a < b] (front : List α)
    {a b : List α} : front ++ a < front ++ b ↔ a < b := by
  induction front with
  | nil => rfl
  | cons c front ih =>
    rw [List.cons_append, List.cons_append, List.cons_lt_cons_iff, ih]
    constructor
    · rintro (hlt | ⟨-, hlt⟩)
      · exact absurd hlt (Std.Irrefl.irrefl c)
      · exact hlt
    · exact fun hlt => Or.inr ⟨rfl, hlt⟩

/-- Strings whose fronts have one length are ordered by these, and by what follows if they are equal. -/
theorem Bytes.append_lt_append_iff_of_length {a a' b b' : Bytes} (hlength : a.length = a'.length) :
    a ++ b < a' ++ b' ↔ a < a' ∨ a = a' ∧ b < b' := by
  induction a generalizing a' with
  | nil =>
    obtain rfl := List.eq_nil_of_length_eq_zero hlength.symm
    simp
  | cons c a ih =>
    cases a' with
    | nil => simp at hlength
    | cons d a' =>
      rw [List.cons_append, List.cons_append, List.cons_lt_cons_iff, List.cons_lt_cons_iff,
        ih (Nat.succ.inj hlength), List.cons.injEq, and_or_left, or_assoc, and_assoc]

/-- Strings of one length are in the order of their naturals. -/
theorem ofBigEndian_lt_iff {a b : Bytes} (hlength : a.length = b.length) :
    ofBigEndian a < ofBigEndian b ↔ a < b := by
  induction a generalizing b with
  | nil =>
    obtain rfl := List.eq_nil_of_length_eq_zero hlength.symm
    simp
  | cons c a ih =>
    cases b with
    | nil => simp at hlength
    | cons d b =>
      have hrest : a.length = b.length := Nat.succ.inj hlength
      have ha := ofBigEndian_lt a
      have hb := ofBigEndian_lt b
      rw [List.cons_lt_cons_iff, ← ih hrest, ofBigEndian_cons, ofBigEndian_cons, ← hrest,
        UInt8.lt_iff_toNat_lt]
      rw [← hrest] at hb
      generalize 256 ^ a.length = weight at ha hb
      -- The first byte decides, because what follows it stays below its weight.
      have hdecides {x y : Nat} (hlt : x < y) : x * weight + weight ≤ y * weight := by
        calc x * weight + weight = (x + 1) * weight := by rw [Nat.add_mul, Nat.one_mul]
          _ ≤ y * weight := Nat.mul_le_mul_right weight hlt
      rcases Nat.lt_trichotomy c.toNat d.toNat with hlt | heq | hgt
      · have hle := hdecides hlt
        exact ⟨fun _ => Or.inl hlt, fun _ => by omega⟩
      · obtain rfl := UInt8.toNat_inj.mp heq
        simp
      · have hle := hdecides hgt
        refine ⟨fun hlow => by omega, ?_⟩
        rintro (hlt | ⟨rfl, -⟩) <;> omega

/-- The byte order of written words is their numeric order. -/
theorem wordBytes_lt_iff {a b : UInt64} : wordBytes a < wordBytes b ↔ a < b := by
  have hread (word : UInt64) : ofBigEndian (wordBytes word) = word.toNat := by
    rw [wordBytes, ofBigEndian_bigEndian]
    exact Nat.mod_eq_of_lt word.toNat_lt
  rw [← ofBigEndian_lt_iff (by rw [wordBytes_length, wordBytes_length]), hread, hread,
    UInt64.lt_iff_toNat_lt]

end EntityCatalog
