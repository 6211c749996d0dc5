namespace Hoist

/-- How many magnitudes are finite: all bit patterns below the one of infinity. -/
def finiteRanks : Nat := 2047 * Nat.pow 2 52

/-- A binary64 value, all NaN being one. The finite magnitudes are numbered in increasing order,
so a sign and a rank name each of them once. -/
inductive Binary64
  | nan
  | infinite (negative : Bool)
  | finite (negative : Bool) (rank : Fin finiteRanks)
  deriving DecidableEq

instance : Inhabited Binary64 := ⟨.finite false ⟨0, by decide⟩⟩

/-- The magnitude of a rank, counted in units of `2 ^ (-1074)`: the low ranks are the subnormal
numbers, and each later block of `2 ^ 52` ranks doubles the step. -/
def rankUnits (rank : Nat) : Nat :=
  let block := Nat.pow 2 52
  if rank < block then rank else (block + rank % block) * Nat.pow 2 (rank / block - 1)

/-- The integer nearest to a quotient, a half going to the even neighbour. -/
def roundHalfEven (num den : Nat) : Nat :=
  let below := num / den
  let rest := num % den
  if 2 * rest < den then below
  else if den < 2 * rest then below + 1
  else if below % 2 = 0 then below else below + 1

/-- The rank nearest to `num / den` in magnitude, which past the largest is no finite one. -/
def nearestRank (num den : Nat) : Nat :=
  let units := num * Nat.pow 2 1074
  let whole := units / den
  let shift := if whole < Nat.pow 2 53 then 0 else whole.log2 - 52
  shift * Nat.pow 2 52 + roundHalfEven units (den * Nat.pow 2 shift)

/-- The rank nearest to `digits * 10 ^ exponent`. -/
def nearestDecimalRank (digits : Nat) (exponent : Int) : Nat :=
  match exponent with
  | .ofNat e => nearestRank (digits * Nat.pow 10 e) 1
  | .negSucc e => nearestRank digits (Nat.pow 10 (e + 1))

/-- The value with a sign and a rank, infinite where the rank is no finite one. -/
def Binary64.ofRank (negative : Bool) (rank : Nat) : Binary64 :=
  if h : rank < finiteRanks then .finite negative ⟨rank, h⟩ else .infinite negative

/-- The value nearest to `digits * 10 ^ exponent`, a half going to the even significand. -/
def Binary64.ofDecimal (negative : Bool) (digits : Nat) (exponent : Int) : Binary64 :=
  .ofRank negative (nearestDecimalRank digits exponent)

end Hoist
