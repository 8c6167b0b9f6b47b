/-!
# Rounding a quotient

A quotient of naturals is rounded to the nearest integer, and a half goes to the even neighbour.
-/

namespace EntityCatalog

/-- The integer nearest to a quotient, and of two equally near the even one. -/
def roundDiv (num den : Nat) : Nat :=
  let whole := num / den
  let twice := 2 * (num % den)
  if twice < den then whole
  else if den < twice then whole + 1
  else whole + whole % 2

/-- The integer nearest to `num / den * 2 ^ shift`. -/
def roundShifted (num den : Nat) (shift : Int) : Nat :=
  roundDiv (num * Nat.pow 2 shift.toNat) (den * Nat.pow 2 (-shift).toNat)

end EntityCatalog
