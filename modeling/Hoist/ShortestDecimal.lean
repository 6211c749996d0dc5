import Hoist.Binary64
import Hoist.Digits

namespace Hoist

/-- A decimal `digits * 10 ^ exponent`. -/
structure Decimal where
  digits : Nat
  exponent : Int
  deriving DecidableEq

/-- How many digits stand before the point of `rankUnits rank`, a negative count being the zeros
after the point. The magnitude is scaled by `10 ^ 400`, which makes all but zero a whole number. -/
def leadingPlaces (rank : Nat) : Int :=
  (decimalDigits (rankUnits rank * Nat.pow 10 400 / Nat.pow 2 1074)).length - 400

/-- The last multiple of `10 ^ exponent` that is not above the rank's magnitude, counted in that
step, and whether the magnitude is at least half a step above it. -/
def gridBelow (rank : Nat) (exponent : Int) : Nat × Bool :=
  let num := rankUnits rank * Nat.pow 10 (-exponent).toNat
  let den := Nat.pow 2 1074 * Nat.pow 10 exponent.toNat
  (num / den, decide (den ≤ 2 * (num % den)))

/-- The decimal with so many digits that reads back as the rank, if there is one. Of two, the
nearer is taken, and of two equally near the larger. -/
def shortestWith (rank places : Nat) : Option Decimal :=
  let exponent := leadingPlaces rank - places
  let (below, upper) := gridBelow rank exponent
  let candidates := if upper then [below + 1, below] else [below, below + 1]
  (candidates.find? fun d => nearestDecimalRank d exponent = rank).map (⟨·, exponent⟩)

/-- The exact decimal of a rank, which is finite since its denominator is a power of two. -/
def exactDecimal (rank : Nat) : Decimal :=
  ⟨rankUnits rank * Nat.pow 5 1074, -1074⟩

/-- The decimal with the fewest digits that reads back as the rank. Seventeen are always enough. -/
def shortestDecimal (rank : Nat) : Decimal :=
  if rank = 0 then ⟨0, 0⟩
  else ((List.range' 1 17).findSome? (shortestWith rank)).getD (exactDecimal rank)

end Hoist
