import EntityCatalog.Bytes.Basic

/-!
# Fixed-width integers as bytes

Surrogate ids and marks are written most significant byte first, so that the byte order of keys
is the numeric order of ids. The fields of a stored record are written least significant byte
first. Both are defined on naturals, for any width, and used at width eight.
-/

namespace EntityCatalog

/-- The lowest `width` base-256 digits of `n`, most significant first. -/
def bigEndian : (width n : Nat) → Bytes
  | 0, _ => []
  | width + 1, n => UInt8.ofNat (n / Nat.pow 256 width) :: bigEndian width (n % Nat.pow 256 width)

/-- The natural with the given base-256 digits, most significant first. -/
def ofBigEndian : Bytes → Nat
  | [] => 0
  | b :: rest => b.toNat * Nat.pow 256 rest.length + ofBigEndian rest

/-- The lowest `width` base-256 digits of `n`, least significant first. -/
def littleEndian : (width n : Nat) → Bytes
  | 0, _ => []
  | width + 1, n => UInt8.ofNat n :: littleEndian width (n / 256)

/-- The natural with the given base-256 digits, least significant first. -/
def ofLittleEndian : Bytes → Nat
  | [] => 0
  | b :: rest => b.toNat + 256 * ofLittleEndian rest

/-- The number of bytes of a 64-bit word. -/
def wordWidth : Nat := 8

/-- A word as eight bytes, most significant first. -/
def wordBytes (word : UInt64) : Bytes := bigEndian wordWidth word.toNat

/-- The word written in exactly eight bytes, most significant first. -/
def word? (bytes : Bytes) : Option UInt64 :=
  if bytes.length = wordWidth then some (UInt64.ofNat (ofBigEndian bytes)) else none

/-- A big-endian number is as wide as asked for. -/
theorem bigEndian_length (width n : Nat) : (bigEndian width n).length = width := by
  induction width generalizing n with
  | zero => rfl
  | succ width ih => simp [bigEndian, ih]

/-- A little-endian number is as wide as asked for. -/
theorem littleEndian_length (width n : Nat) : (littleEndian width n).length = width := by
  induction width generalizing n with
  | zero => rfl
  | succ width ih => simp [littleEndian, ih]

/-- A word takes eight bytes. -/
theorem wordBytes_length (word : UInt64) : (wordBytes word).length = wordWidth :=
  bigEndian_length _ _

end EntityCatalog
