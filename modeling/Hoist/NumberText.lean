import Hoist.ShortestDecimal

namespace Hoist

/-- The digits of a decimal without trailing zeros, and how many of them stand before the point.
A count below zero stands for zeros after the point. -/
structure PlacedDigits where
  digits : List Char
  places : Int

/-- The digits without the zeros at their end. -/
def stripZeros (digits : List Char) : List Char :=
  (digits.reverse.dropWhile (· = '0')).reverse

/-- Zero keeps one digit. -/
def Decimal.placed (d : Decimal) : PlacedDigits :=
  if d.digits = 0 then ⟨['0'], 1⟩
  else
    let all := decimalDigits d.digits
    ⟨stripZeros all, all.length + d.exponent⟩

/-- The whole part, which is never empty. -/
def PlacedDigits.whole (p : PlacedDigits) : List Char :=
  if p.places ≤ 0 then ['0']
  else p.digits.take p.places.toNat ++ List.replicate (p.places.toNat - p.digits.length) '0'

/-- The digits after the point. -/
def PlacedDigits.fraction (p : PlacedDigits) : List Char :=
  if p.places ≤ 0 then List.replicate (-p.places).toNat '0' ++ p.digits
  else p.digits.drop p.places.toNat

/-- Positional notation, with a point only where a fraction follows. -/
def PlacedDigits.plain (p : PlacedDigits) : List Char :=
  if p.fraction.isEmpty then p.whole else p.whole ++ '.' :: p.fraction

/-- Positional notation with at least one digit after the point. -/
def PlacedDigits.pointed (p : PlacedDigits) : List Char :=
  if p.fraction.isEmpty then p.whole ++ ['.', '0'] else p.whole ++ '.' :: p.fraction

/-- One digit before the point and a power of ten. -/
def PlacedDigits.scientific (p : PlacedDigits) : List Char :=
  let mantissa := if p.digits.length ≤ 1 then p.digits
    else p.digits.take 1 ++ '.' :: p.digits.drop 1
  mantissa ++ 'e' :: (toString (p.places - 1)).toList

/-- A sign in front of the text of a magnitude. -/
def signed (negative : Bool) (text : List Char) : String :=
  String.ofList (if negative then '-' :: text else text)

/-- The text of a number in a program: the fewest digits that read back, never an exponent, and a
point only where a fraction follows. -/
def Binary64.text : Binary64 → String
  | .nan => "NaN"
  | .infinite negative => signed negative ['i', 'n', 'f']
  | .finite negative rank => signed negative (shortestDecimal rank).placed.plain

/-- The text of a number in a message: a fraction is always shown, and magnitudes below `0.0001`
or from `10 ^ 16` on are written with an exponent. -/
def Binary64.inspect : Binary64 → String
  | .nan => "NaN"
  | .infinite negative => signed negative ['i', 'n', 'f']
  | .finite negative rank =>
    let placed := (shortestDecimal rank).placed
    let scientific := rank.val ≠ 0 ∧ (placed.places < -3 ∨ 16 < placed.places)
    signed negative (if scientific then placed.scientific else placed.pointed)

end Hoist
