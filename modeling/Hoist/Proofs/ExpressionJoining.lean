import Hoist.Proofs.Joining

namespace Hoist

section Tails

variable {left : Draft} {ts : List Token}

end Tails

section Expressions

variable {lines : Nat} {ts more : List Token}

end Expressions

end Hoist
