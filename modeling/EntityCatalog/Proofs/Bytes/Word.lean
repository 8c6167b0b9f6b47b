import EntityCatalog.Bytes.Word
import Mathlib.Algebra.Group.Nat.Defs

/-!
# Reading words back

Bytes and words of a fixed width determine each other, in both byte orders.
-/

namespace EntityCatalog

/-- A big-endian number begins with its highest byte and goes on with the rest of it. -/
theorem bigEndian_succ (width n : Nat) :
    bigEndian (width + 1) n =
      UInt8.ofNat (n / 256 ^ width) :: bigEndian width (n % 256 ^ width) := rfl

/-- The first byte of a big-endian number weighs as much as there are bytes after it. -/
theorem ofBigEndian_cons (b : UInt8) (rest : Bytes) :
    ofBigEndian (b :: rest) = b.toNat * 256 ^ rest.length + ofBigEndian rest := rfl

/-- Reading the digits of a natural gives it back modulo the width. -/
theorem ofBigEndian_bigEndian (width n : Nat) :
    ofBigEndian (bigEndian width n) = n % 256 ^ width := by
  induction width generalizing n with
  | zero => simp [bigEndian, ofBigEndian, Nat.mod_one]
  | succ width ih =>
    have hsplit : n % 256 ^ (width + 1) =
        n % 256 ^ width + 256 ^ width * (n / 256 ^ width % 256) := by
      rw [Nat.pow_succ, Nat.mod_mul]
    rw [bigEndian_succ, ofBigEndian_cons, bigEndian_length, ih, Nat.mod_mod, UInt8.toNat_ofNat', hsplit,
      Nat.add_comm, Nat.mul_comm]

/-- The natural of some bytes is below the power of their number. -/
theorem ofBigEndian_lt (bytes : Bytes) : ofBigEndian bytes < 256 ^ bytes.length := by
  induction bytes with
  | nil => simp [ofBigEndian]
  | cons b rest ih =>
    have hb : b.toNat < 256 := b.toNat_lt
    calc ofBigEndian (b :: rest)
        < b.toNat * 256 ^ rest.length + 256 ^ rest.length := by rw [ofBigEndian_cons]; omega
      _ = (b.toNat + 1) * 256 ^ rest.length := by rw [Nat.add_mul, Nat.one_mul]
      _ ≤ 256 * 256 ^ rest.length := Nat.mul_le_mul_right _ hb
      _ = 256 ^ (b :: rest).length := by rw [List.length_cons, Nat.pow_succ, Nat.mul_comm]

/-- Writing the natural of some bytes gives them back. -/
theorem bigEndian_ofBigEndian (bytes : Bytes) :
    bigEndian bytes.length (ofBigEndian bytes) = bytes := by
  induction bytes with
  | nil => rfl
  | cons b rest ih =>
    have hlt := ofBigEndian_lt rest
    have hpos : 0 < 256 ^ rest.length := Nat.lt_of_le_of_lt (Nat.zero_le _) hlt
    have hhigh : (b.toNat * 256 ^ rest.length + ofBigEndian rest) / 256 ^ rest.length = b.toNat := by
      rw [Nat.mul_comm, Nat.mul_add_div hpos, Nat.div_eq_of_lt hlt, Nat.add_zero]
    have hlow : (b.toNat * 256 ^ rest.length + ofBigEndian rest) % 256 ^ rest.length =
        ofBigEndian rest := by
      rw [Nat.mul_comm, Nat.mul_add_mod, Nat.mod_eq_of_lt hlt]
    rw [List.length_cons, ofBigEndian_cons, bigEndian_succ, hhigh, hlow, ih, UInt8.ofNat_toNat]

/-- Reading the digits of a natural, lowest first, gives it back modulo the width. -/
theorem ofLittleEndian_littleEndian (width n : Nat) :
    ofLittleEndian (littleEndian width n) = n % 256 ^ width := by
  induction width generalizing n with
  | zero => simp [littleEndian, ofLittleEndian, Nat.mod_one]
  | succ width ih =>
    have hsplit : n % 256 ^ (width + 1) = n % 256 + 256 * (n / 256 % 256 ^ width) := by
      rw [Nat.pow_succ, Nat.mul_comm, Nat.mod_mul]
    rw [littleEndian, ofLittleEndian, ih, UInt8.toNat_ofNat', hsplit]

/-- The natural of some bytes, lowest first, is below the power of their number. -/
theorem ofLittleEndian_lt (bytes : Bytes) : ofLittleEndian bytes < 256 ^ bytes.length := by
  induction bytes with
  | nil => simp [ofLittleEndian]
  | cons b rest ih =>
    have hb : b.toNat < 256 := b.toNat_lt
    rw [ofLittleEndian, List.length_cons, Nat.pow_succ]
    omega

/-- Writing the natural of some bytes, lowest first, gives them back. -/
theorem littleEndian_ofLittleEndian (bytes : Bytes) :
    littleEndian bytes.length (ofLittleEndian bytes) = bytes := by
  induction bytes with
  | nil => rfl
  | cons b rest ih =>
    have hb : b.toNat < 256 := b.toNat_lt
    have hlow : UInt8.ofNat (b.toNat + 256 * ofLittleEndian rest) = b := by
      rw [← UInt8.toNat_inj, UInt8.toNat_ofNat']
      omega
    have hhigh : (b.toNat + 256 * ofLittleEndian rest) / 256 = ofLittleEndian rest := by omega
    rw [ofLittleEndian, List.length_cons, littleEndian, hlow, hhigh, ih]

/-- The bytes of a natural, lowest first, are its base-256 digits. -/
theorem littleEndian_getElem? {width i : Nat} (n : Nat) (h : i < width) :
    (littleEndian width n)[i]? = some (UInt8.ofNat (n / 256 ^ i)) := by
  induction width generalizing n i with
  | zero => exact absurd h (Nat.not_lt_zero i)
  | succ width ih =>
    cases i with
    | zero => simp [littleEndian]
    | succ i =>
      rw [littleEndian, List.getElem?_cons_succ, ih (n / 256) (Nat.lt_of_succ_lt_succ h),
        Nat.div_div_eq_div_mul, ← Nat.pow_succ']

/-- Reading a written word gives it back. -/
@[simp] theorem word?_wordBytes (word : UInt64) : word? (wordBytes word) = some word := by
  have hlt : word.toNat < 256 ^ wordWidth := word.toNat_lt
  rw [word?, if_pos (wordBytes_length word), wordBytes, ofBigEndian_bigEndian,
    Nat.mod_eq_of_lt hlt, UInt64.ofNat_toNat]

/-- Bytes that read as a word are the bytes of that word. -/
theorem word?_eq_some_iff (bytes : Bytes) (word : UInt64) :
    word? bytes = some word ↔ bytes = wordBytes word := by
  refine ⟨fun h => ?_, fun h => h ▸ word?_wordBytes word⟩
  simp only [word?] at h
  split at h
  · rename_i hlength
    obtain rfl := Option.some.inj h
    have hlt := ofBigEndian_lt bytes
    rw [hlength] at hlt
    have hsize : (UInt64.ofNat (ofBigEndian bytes)).toNat = ofBigEndian bytes :=
      UInt64.toNat_ofNat_of_lt hlt
    rw [wordBytes, hsize, ← hlength, bigEndian_ofBigEndian]
  · exact absurd h (by simp)

/-- Different words have different bytes. -/
theorem wordBytes_injective {a b : UInt64} (h : wordBytes a = wordBytes b) : a = b := by
  have hread := word?_wordBytes a
  rw [h, word?_wordBytes] at hread
  exact (Option.some.inj hread).symm

end EntityCatalog
