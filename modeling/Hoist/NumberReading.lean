import Hoist.Binary64
import Hoist.Digits

namespace Hoist

/-- The value of `whole.fraction`. -/
def Binary64.ofPlaces (whole fraction : List Char) : Binary64 :=
  .ofDecimal false (ofDigits (whole ++ fraction)) (-(fraction.length : Int))

/-- The value of `digits * 10 ^ exponent`. Where the leading digit stands far outside the range of
the format, the answer is known without the power. -/
def Binary64.ofScientific (negative : Bool) (digits : List Char) (exponent : Int) : Binary64 :=
  let significant := digits.dropWhile (· = '0')
  let leading : Int := significant.length + exponent
  if significant.isEmpty ∨ leading < -400 then .ofRank negative 0
  else if 400 < leading then .infinite negative
  else .ofDecimal negative (ofDigits significant) exponent

/-- An exponent: a sign and at least one digit. -/
def exponentOfText? : List Char → Option Int
  | '-' :: cs => if cs.isEmpty ∨ cs.any (!·.isDigit) then none else some (-(ofDigits cs : Int))
  | '+' :: cs => if cs.isEmpty ∨ cs.any (!·.isDigit) then none else some (ofDigits cs)
  | cs => if cs.isEmpty ∨ cs.any (!·.isDigit) then none else some (ofDigits cs)

/-- Splits off a point and the digits behind it. -/
def takeFraction : List Char → List Char × List Char
  | '.' :: cs => (cs.takeWhile Char.isDigit, cs.dropWhile Char.isDigit)
  | cs => ([], cs)

/-- A magnitude: a name for what is no finite number, in any case of letters, or digits on at least
one side of an optional point, with an optional exponent. -/
def Binary64.ofMagnitude? (negative : Bool) (cs : List Char) : Option Binary64 :=
  let lower := cs.map Char.toLower
  if lower = "nan".toList then some .nan
  else if lower = "inf".toList ∨ lower = "infinity".toList then some (.infinite negative)
  else
    let whole := cs.takeWhile Char.isDigit
    let fraction := takeFraction (cs.dropWhile Char.isDigit)
    if whole.isEmpty ∧ fraction.1.isEmpty then none
    else
      let scale : Int := -(fraction.1.length : Int)
      match fraction.2 with
      | [] => some (.ofDecimal negative (ofDigits (whole ++ fraction.1)) scale)
      | e :: r =>
        if e = 'e' ∨ e = 'E' then
          (exponentOfText? r).map fun x => .ofScientific negative (whole ++ fraction.1) (scale + x)
        else none

/-- The number that characters write, with an optional sign in front. -/
def Binary64.ofChars? : List Char → Option Binary64
  | '-' :: cs => ofMagnitude? true cs
  | '+' :: cs => ofMagnitude? false cs
  | cs => ofMagnitude? false cs

/-- The number that a text writes. -/
def Binary64.ofText? (text : String) : Option Binary64 := ofChars? text.toList

end Hoist
