/-!
# Unsigned decimals

Writing a natural in decimal, and reading a 64-bit unsigned number: an optional plus sign, then
one or more ASCII digits, with leading zeros allowed and nothing else around them.
-/

namespace EntityCatalog.Text

/-- The decimal digits of a natural, without leading zeros. -/
def decimalChars (n : Nat) : List Char := Nat.toDigits 10 n

/-- A natural in decimal. -/
def decimal (n : Nat) : String := String.ofList (decimalChars n)

/-- The value of an ASCII digit. -/
def digit? (c : Char) : Option Nat := if c.isDigit then some (c.toNat - '0'.toNat) else none

/-- Read digits onto a value that has been read so far. -/
def readDigits : (value : Nat) → List Char → Option Nat
  | value, [] => some value
  | value, c :: rest =>
    match digit? c with
    | some d => readDigits (10 * value + d) rest
    | none => none

/-- Drop one leading plus sign. -/
def dropPlus : List Char → List Char
  | '+' :: rest => rest
  | chars => chars

/-- Read an unsigned number, at least one digit long. -/
def readNatural? (chars : List Char) : Option Nat :=
  match dropPlus chars with
  | [] => none
  | digits => readDigits 0 digits

/-- Read an unsigned number below `2 ^ 64`. -/
def readWord? (text : String) : Option UInt64 :=
  match readNatural? text.toList with
  | some n => if n < UInt64.size then some (UInt64.ofNat n) else none
  | none => none

/-- Pad a text with blanks on the left to at least `width` characters. -/
def padLeft (width : Nat) (text : String) : String :=
  String.ofList (List.replicate (width - text.length) ' ') ++ text

/-- A word in decimal. -/
def word (w : UInt64) : String := decimal w.toNat

end EntityCatalog.Text
