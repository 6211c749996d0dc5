import Hoist.Alphabetic
import Hoist.Numeric

namespace Hoist

/-- Whether a name may begin with the character. -/
def isNameStart (c : Char) : Bool :=
  isAlphabetic c || c = '_' || c = '$'

/-- Whether a name may go on with the character. -/
def isNamePart (c : Char) : Bool :=
  isAlphabetic c || isNumeric c || c = '_' || c = '$'

/-- Whether a text is written like a name. -/
def isNameLike (text : String) : Bool :=
  match text.toList with
  | [] => false
  | c :: cs => isNameStart c && cs.all isNamePart

/-- Whether a name is written in capitals, as names of constants are: at least two characters, all
of them capitals, digits, `_` or `$`, with a capital among them and no digit in front. -/
def isConstantCase (name : String) : Bool :=
  let isCapital (c : Char) : Bool := 'A' ≤ c && c ≤ 'Z'
  match name.toList with
  | [] => false
  | c :: cs =>
    !cs.isEmpty && !c.isDigit && (c :: cs).any isCapital &&
      (c :: cs).all fun d => isCapital d || d.isDigit || d = '_' || d = '$'

end Hoist
