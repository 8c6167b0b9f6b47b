import EntityCatalog.Number.Binary64
import EntityCatalog.Text.Decimal

/-!
# Ratios

A ratio of two counts is shown with six decimal places. The quotient is rounded twice: first to
the binary format, then to the places shown, so a ratio that lies half way between two decimals
is settled by the first rounding.
-/

namespace EntityCatalog.Text

/-- A count of millionths with six places after the point. -/
def sixPlaces (count : Nat) : String :=
  let fraction := decimal (count % 1000000)
  decimal (count / 1000000) ++ "." ++
    String.ofList (List.replicate (6 - fraction.length) '0') ++ fraction

/-- The share of `part` in `part + rest`, with six places. The share in nothing is zero. -/
def ratio (part rest : Nat) : String :=
  sixPlaces ((Binary64.ofQuotient part (part + rest)).roundScaled 1000000)

end EntityCatalog.Text
