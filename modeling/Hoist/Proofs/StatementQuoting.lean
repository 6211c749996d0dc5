import Hoist.Proofs.Quoting

namespace Hoist

/-- Declarations in a block quote what they quote outside. -/
theorem Draft.AllQuote.single {d : Draft} {said : List Token} (start : Span)
    (h : AllQuote [d] said) : AllQuote [Hoist.single start d] said := by
  unfold Hoist.single
  split
  · exact h
  · exact (AllQuote.above h rfl).one
  · exact h

section Statements

variable {ts : List Token}

end Statements

end Hoist
