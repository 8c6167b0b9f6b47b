import EntityCatalog.Key.Scope
import EntityCatalog.Proofs.Text.Cut

/-!
# Scopes read one way only

A scoped name determines the ids above it, its kind and the name in it, although names may hold
digits, slashes and colons. The reading goes from the front: the digits of an id end at the
slash, and a scope without ids starts with a letter.
-/

namespace EntityCatalog

/-- Two lists of one class, each ended by an element outside it, are told apart from the front. -/
theorem append_cons_inj {α : Type} (p : α → Prop) {a a' r r' : List α} {mark mark' : α}
    (ha : ∀ c ∈ a, p c) (ha' : ∀ c ∈ a', p c) (hmark : ¬ p mark) (hmark' : ¬ p mark')
    (h : a ++ mark :: r = a' ++ mark' :: r') : a = a' ∧ r = r' := by
  induction a generalizing a' with
  | nil =>
    cases a' with
    | nil => exact ⟨rfl, (List.cons.inj h).2⟩
    | cons c' rest' =>
      have hhead : mark = c' := (List.cons.inj h).1
      exact absurd (ha' c' List.mem_cons_self) (hhead ▸ hmark)
  | cons c rest ih =>
    cases a' with
    | nil =>
      have hhead : c = mark' := (List.cons.inj h).1
      exact absurd (ha c List.mem_cons_self) (hhead ▸ hmark')
    | cons c' rest' =>
      obtain ⟨hhead, htail⟩ := List.cons.inj h
      obtain ⟨hrest, hback⟩ := ih (fun d hd => ha d (List.mem_cons_of_mem _ hd))
        (fun d hd => ha' d (List.mem_cons_of_mem _ hd)) htail
      exact ⟨by rw [hhead, hrest], hback⟩

namespace Text

/-- A number is written in digits only. -/
theorem isDigit_of_mem_decimalChars {n : Nat} {c : Char} (h : c ∈ decimalChars n) :
    c.isDigit = true :=
  Nat.isDigit_of_mem_toDigits (by decide) (by decide) h

/-- Different numbers are written differently. -/
theorem decimalChars_injective {a b : Nat} (h : decimalChars a = decimalChars b) : a = b := by
  rw [← Nat.ofDigitChars_ten_toDigits (n := a), ← Nat.ofDigitChars_ten_toDigits (n := b)]
  exact congrArg (fun digits => Nat.ofDigitChars 10 digits 0) h

/-- No number is written in no digits. -/
theorem decimalChars_ne_nil (n : Nat) : decimalChars n ≠ [] := Nat.toDigits_ne_nil

end Text

/-- Different kinds have different letters. -/
theorem Kind.letters_injective {a b : Kind} (h : a.letters = b.letters) : a = b := by
  revert h
  cases a <;> cases b <;> decide

/-- The first letter of a kind is no digit. -/
theorem Kind.isDigit_letters (kind : Kind) : kind.letters.1.isDigit = false := by
  cases kind <;> rfl

/-- A scope with ids starts with a digit, and one without with a letter. -/
theorem scopeChars_cons_ne (id : UInt64) (rest : List UInt64) (kind kind' : Kind)
    (name name' : List Char) :
    scopeChars (id :: rest) kind ++ name ≠ scopeChars [] kind' ++ name' := by
  intro h
  obtain ⟨c, digits, hdigits⟩ := List.exists_cons_of_ne_nil (Text.decimalChars_ne_nil id.toNat)
  have hdigit : c.isDigit = true :=
    Text.isDigit_of_mem_decimalChars (n := id.toNat) (hdigits ▸ List.mem_cons_self)
  simp only [scopeChars, List.flatMap_cons, List.flatMap_nil, hdigits, List.cons_append,
    List.nil_append, Kind.codeChars, List.cons.injEq] at h
  rw [h.1, Kind.isDigit_letters] at hdigit
  exact Bool.false_ne_true hdigit

/-- The characters of a scoped name determine the ids, the kind and the name. -/
theorem scopeChars_append_inj {ids ids' : List UInt64} {kind kind' : Kind} {name name' : List Char}
    (h : scopeChars ids kind ++ name = scopeChars ids' kind' ++ name') :
    ids = ids' ∧ kind = kind' ∧ name = name' := by
  induction ids generalizing ids' with
  | nil =>
    cases ids' with
    | nil =>
      simp only [scopeChars, List.flatMap_nil, List.nil_append, Kind.codeChars, List.cons_append,
        List.cons.injEq] at h
      obtain ⟨hfirst, hsecond, -, hname⟩ := h
      exact ⟨rfl, Kind.letters_injective (Prod.ext hfirst hsecond), hname⟩
    | cons id' rest' => exact absurd h.symm (scopeChars_cons_ne id' rest' kind' kind name' name)
  | cons id rest ih =>
    cases ids' with
    | nil => exact absurd h (scopeChars_cons_ne id rest kind kind' name name')
    | cons id' rest' =>
      simp only [scopeChars, List.flatMap_cons, List.append_assoc, List.cons_append,
        List.nil_append] at h
      obtain ⟨hid, hrest⟩ := append_cons_inj (fun c => c.isDigit = true)
        (fun _ hc => Text.isDigit_of_mem_decimalChars hc)
        (fun _ hc => Text.isDigit_of_mem_decimalChars hc) (by decide) (by decide) h
      have hsame : id = id' := UInt64.toNat_inj.mp (Text.decimalChars_injective hid)
      obtain ⟨hids, hkind, hname⟩ := @ih rest' (by
        simpa only [scopeChars, List.append_assoc, List.cons_append, List.nil_append] using hrest)
      exact ⟨by rw [hsame, hids], hkind, hname⟩

/-- A scoped name determines the ids above it, its kind and the name in it. -/
theorem scopedName_injective {ids ids' : List UInt64} {kind kind' : Kind} {name name' : String}
    (h : scopedName ids kind name = scopedName ids' kind' name') :
    ids = ids' ∧ kind = kind' ∧ name = name' := by
  obtain ⟨hids, hkind, hname⟩ := scopeChars_append_inj (String.ofList_injective h)
  exact ⟨hids, hkind, String.toList_injective hname⟩

/-- A full name holds a name within a scope exactly when it is the name scoped by it. -/
theorem unscopedName?_eq_some_iff (ids : List UInt64) (kind : Kind) (full name : String) :
    unscopedName? ids kind full = some name ↔ full = scopedName ids kind name := by
  rw [unscopedName?, Option.map_eq_some_iff, scopedName]
  constructor
  · rintro ⟨chars, hchars, rfl⟩
    rw [String.toList_ofList, ← (Text.after?_eq_some_iff _ _ _).mp hchars, String.ofList_toList]
  · rintro rfl
    exact ⟨name.toList, (Text.after?_eq_some_iff _ _ _).mpr (by simp), String.ofList_toList⟩

/-- Reading a name within its own scope gives it back. -/
@[simp] theorem unscopedName?_scopedName (ids : List UInt64) (kind : Kind) (name : String) :
    unscopedName? ids kind (scopedName ids kind name) = some name :=
  (unscopedName?_eq_some_iff ids kind _ name).mpr rfl

/-- Scoped names are equal only when they are put together from the same parts. -/
theorem scopedName_inj (ids ids' : List UInt64) (kind kind' : Kind) (name name' : String) :
    scopedName ids kind name = scopedName ids' kind' name' ↔
      ids = ids' ∧ kind = kind' ∧ name = name' := by
  refine ⟨scopedName_injective, ?_⟩
  rintro ⟨rfl, rfl, rfl⟩
  rfl

/-- The scope of a name is the scoped name that is empty. -/
theorem toList_scopedName_empty (ids : List UInt64) (kind : Kind) :
    (scopedName ids kind "").toList = scopeChars ids kind := by
  simp [scopedName]

/-- A scope starts the names within it and no other scoped name. -/
theorem scope_prefix_iff (ids ids' : List UInt64) (kind kind' : Kind) (name : String) :
    (scopedName ids kind "").toList <+: (scopedName ids' kind' name).toList ↔
      ids = ids' ∧ kind = kind' := by
  rw [toList_scopedName_empty, scopedName, String.toList_ofList]
  constructor
  · intro h
    obtain ⟨rest, hrest⟩ := h
    obtain ⟨hids, hkind, -⟩ := scopeChars_append_inj hrest
    exact ⟨hids, hkind⟩
  · rintro ⟨rfl, rfl⟩
    exact List.prefix_append _ _

/-- A name is read within its own scope, and within no other. -/
theorem unscopedName?_eq_ite (ids ids' : List UInt64) (kind kind' : Kind) (name : String) :
    unscopedName? ids kind (scopedName ids' kind' name) =
      if ids = ids' ∧ kind = kind' then some name else none := by
  split
  · rename_i hsame
    rw [hsame.1, hsame.2, unscopedName?_scopedName]
  · rename_i hother
    rw [Option.eq_none_iff_forall_ne_some]
    intro rest hrest
    rw [unscopedName?_eq_some_iff, scopedName_inj] at hrest
    exact hother ⟨hrest.1.symm, hrest.2.1.symm⟩

/-- Scopes are read one way only, whatever the names hold. Scoped names are equal only when ids, kind and
name are; a scope starts a scoped name exactly when it is its own; and taking it off then leaves the name. -/
theorem scopes_unambiguous (ids ids' : List UInt64) (kind kind' : Kind) (name name' : String) :
    (scopedName ids kind name = scopedName ids' kind' name' ↔
      ids = ids' ∧ kind = kind' ∧ name = name') ∧
    ((scopedName ids kind "").toList <+: (scopedName ids' kind' name').toList ↔
      ids = ids' ∧ kind = kind') ∧
    unscopedName? ids kind (scopedName ids' kind' name') =
      if ids = ids' ∧ kind = kind' then some name' else none :=
  ⟨scopedName_inj ids ids' kind kind' name name', scope_prefix_iff ids ids' kind kind' name',
    unscopedName?_eq_ite ids ids' kind kind' name'⟩

/-- A metalake may be called what the scope of a schema looks like. -/
example : unscopedName? [0, 2] .schema (scopedName [] .metalake "0/2/sc:x") = none := by decide

end EntityCatalog
