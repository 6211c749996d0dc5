import Hoist.Grammar
import Hoist.TokenScan

namespace Hoist

/-- The tokens of a file. -/
def readTokens (file text : String) : Except Problem TokenList :=
  (tokenize text).mapError (·.inFile file)

/-- The tree of a file. -/
def readTree (file text : String) : Except Problem Tree := do
  let list ← readTokens file text
  let statements ← (parseScript list).mapError (·.inFile file)
  return .ofStatements statements

end Hoist
