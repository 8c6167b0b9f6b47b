import EntityCatalog.Number.Round

/-!
# Binary floating point

A number in the 64-bit binary format is an integer of at most 53 binary digits times a power of
two. A quotient is turned into the nearest such number, and a half goes to the even integer.
-/

namespace EntityCatalog

/-- The number `mantissa * 2 ^ exponent`. -/
structure Binary64 where
  mantissa : Nat
  exponent : Int
deriving DecidableEq, Repr

namespace Binary64

/-- The number of binary digits of a mantissa. -/
def precision : Nat := 53

/-- The least exponent. Below it mantissas get shorter. -/
def minExponent : Int := -1074

/-- The greatest exponent of a mantissa that has all its digits. -/
def maxExponent : Int := 971

/-- The greatest `e` with `2 ^ e ≤ num / den`, for a positive quotient. -/
def binaryLog (num den : Nat) : Int :=
  let guess : Int := (num.log2 : Int) - den.log2
  if den * Nat.pow 2 guess.toNat ≤ num * Nat.pow 2 (-guess).toNat then guess else guess - 1

/-- A mantissa that was rounded up to one digit too many is halved. -/
def normal (mantissa : Nat) (exponent : Int) : Binary64 :=
  if mantissa = Nat.pow 2 precision then ⟨Nat.pow 2 (precision - 1), exponent + 1⟩
  else ⟨mantissa, exponent⟩

/-- The number nearest to a quotient. -/
def ofQuotient (num den : Nat) : Binary64 :=
  if num = 0 then ⟨0, minExponent⟩
  else
    let exponent := max (binaryLog num den - (precision - 1 : Nat)) minExponent
    normal (roundShifted num den (-exponent)) exponent

/-- Whether the exponent lies in the range of the format. -/
def isFinite (x : Binary64) : Bool := x.exponent ≤ maxExponent

/-- The integer nearest to `scale` times the number. -/
def roundScaled (x : Binary64) (scale : Nat) : Nat :=
  roundShifted (x.mantissa * scale) 1 x.exponent

end Binary64

end EntityCatalog
