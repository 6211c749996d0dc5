import Hoist.Proofs.Segmenting
import Hoist.Proofs.StatementJoining

namespace Hoist

/-- What a blank stretch is in the middle of, in a text that lines were put in front of. -/
def GapState.moved (lines : Nat) : GapState → GapState
  | .between => .between
  | .lineComment => .lineComment
  | .blockComment opened star => .blockComment (opened.moved lines) star

/-- The tokens of a text that lines were put in front of. -/
def TokenList.moved (lines : Nat) (list : TokenList) : TokenList :=
  ⟨list.tokens.map (Token.moved lines), list.finish.moved lines⟩

section Places

variable {lines : Nat} {p : Position}

end Places

section Runs

variable {f : Char → Bool} {cs more : List Char}

end Runs

section Scanners

variable {p : Position} {c : Char} {cs more : List Char}

end Scanners

section Gaps

variable {lines : Nat} {g : GapState} {p q : Position} {cs ds more : List Char}

end Gaps

section Tokens

variable {lines : Nat} {p : Position} {cs more : List Char} {list : TokenList}

end Tokens

section Statements

variable {lines : Nat} {more : List Token}

end Statements

end Hoist
