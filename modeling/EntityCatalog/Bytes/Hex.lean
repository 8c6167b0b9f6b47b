import EntityCatalog.Text.Utf8

/-!
# Hexadecimal text

Bytes are shown as pairs of lower-case digits. Reading accepts both cases, and says where the
first character stands that is no digit.
-/

namespace EntityCatalog.Hex

/-- The digit for a value below sixteen. -/
def digitChar (n : Nat) : Char := if n < 10 then Char.ofNat (48 + n) else Char.ofNat (87 + n)

/-- The two digits of a byte. -/
def byteChars (b : UInt8) : List Char := [digitChar (b.toNat / 16), digitChar (b.toNat % 16)]

/-- Bytes as pairs of lower-case digits. -/
def encode (bytes : Bytes) : String := String.ofList (bytes.flatMap byteChars)

/-- Why a text is not a sequence of bytes in hexadecimal. -/
inductive Fault where
  | oddLength
  | badDigit (found : UInt8) (position : Nat)
deriving DecidableEq, Repr

/-- The value of an ASCII hexadecimal digit. -/
def digitValue? (b : UInt8) : Option UInt8 :=
  if 48 ≤ b ∧ b ≤ 57 then some (b - 48)
  else if 97 ≤ b ∧ b ≤ 102 then some (b - 87)
  else if 65 ≤ b ∧ b ≤ 70 then some (b - 55)
  else none

/-- Read pairs of digits, the first of which stands at `position`. -/
def decodePairs : (position : Nat) → Bytes → Except Fault Bytes
  | _, [] => .ok []
  | _, [_] => .error .oddLength
  | position, high :: low :: rest =>
    match digitValue? high, digitValue? low with
    | none, _ => .error (.badDigit high position)
    | some _, none => .error (.badDigit low (position + 1))
    | some h, some l =>
      match decodePairs (position + 2) rest with
      | .ok bytes => .ok ((h * 16 + l) :: bytes)
      | .error fault => .error fault

/-- Read a text of hexadecimal digits. An odd number of them is reported before a bad digit. -/
def decode (text : String) : Except Fault Bytes :=
  let digits := Text.utf8 text
  if digits.length % 2 = 1 then .error .oddLength else decodePairs 0 digits

end EntityCatalog.Hex
