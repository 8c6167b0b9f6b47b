import EntityCatalog.Number.Binary64
import EntityCatalog.Text.Decimal

/-!
# Shortest decimals

A binary number is written with the fewest decimal digits that read back as the same number, and
among those as the nearest. The reals that read back as a number form an interval around it;
its ends belong to it when the mantissa is even. The multiples of a power of ten are tried from
the coarsest power down, and the first power with a multiple in the interval settles the digits.
-/

namespace EntityCatalog.Binary64

/-- The multiple `count * 10 ^ power`. -/
structure Decimal where
  count : Nat
  power : Int
deriving DecidableEq, Repr

/-- One step of the grid of `10 ^ power`, in a unit that makes every length below whole. -/
def gridStep (x : Binary64) (power : Int) : Nat :=
  Nat.pow 10 power.toNat * Nat.pow 2 (2 - x.exponent).toNat

/-- A quarter of the last binary digit of the number, in the unit of `gridStep`. -/
def quarter (x : Binary64) (power : Int) : Nat :=
  Nat.pow 2 (x.exponent - 2).toNat * Nat.pow 10 (-power).toNat

/-- How far below the number its interval reaches, in quarters. Just above a power of two the
numbers below lie twice as dense. -/
def reachBelow (x : Binary64) : Nat :=
  if x.mantissa = Nat.pow 2 (precision - 1) ∧ minExponent < x.exponent then 1 else 2

/-- Whether a multiple of `10 ^ power` reads back as the number. -/
def readsBack (x : Binary64) (power : Int) (count : Nat) : Bool :=
  let place := count * x.gridStep power
  let low := (4 * x.mantissa - x.reachBelow) * x.quarter power
  let high := (4 * x.mantissa + 2) * x.quarter power
  if x.mantissa % 2 = 0 then low ≤ place && place ≤ high else low < place && place < high

/-- The multiple of `10 ^ power` nearest to the number among those that read back. -/
def nearest? (x : Binary64) (power : Int) : Option Nat :=
  let value := 4 * x.mantissa * x.quarter power
  let step := x.gridStep power
  let below := value / step
  match x.readsBack power below, x.readsBack power (below + 1) with
  | false, false => none
  | true, false => some below
  | false, true => some (below + 1)
  | true, true => some (roundDiv value step)

/-- The shortest decimal on the grids of `10 ^ power` and of the `further` finer powers. -/
def shortestFrom (x : Binary64) : (further : Nat) → (power : Int) → Decimal
  | 0, power => ⟨(x.nearest? power).getD 0, power⟩
  | further + 1, power =>
    match x.nearest? power with
    | some count => ⟨count, power⟩
    | none => shortestFrom x further (power - 1)

/-- The power of ten that no finite number reaches. -/
def topPower : Int := 309

/-- The number of powers of ten between the greatest number and the last digit that the least
numbers can need. -/
def powerSpan : Nat := 650

/-- The shortest decimal that reads back as a positive number. -/
def shortest (x : Binary64) : Decimal := shortestFrom x powerSpan topPower

/-- A decimal written out with its point, and with a place after it at the least. -/
def Decimal.text (d : Decimal) : String :=
  let digits := Text.decimalChars d.count
  let places := (-d.power).toNat
  if places = 0 then
    String.ofList (digits ++ List.replicate d.power.toNat '0' ++ ['.', '0'])
  else
    let padded := List.replicate (places + 1 - digits.length) '0' ++ digits
    let whole := padded.length - places
    String.ofList (padded.take whole ++ ('.' :: padded.drop whole))

/-- A finite number written out with a point. -/
def text (x : Binary64) : String := if x.mantissa = 0 then "0.0" else x.shortest.text

end EntityCatalog.Binary64
