import Hoist.Proofs.ExpressionJoining
import Hoist.Proofs.StatementData

namespace Hoist

section Statements

variable {lines : Nat} {ts more : List Token}

/-- Statements in front of what can not be the end of the text. -/
theorem Joins.statements {β : Type} {n' m' : Nat} {ends : TokenKind → Bool} {Q : List Token → Prop}
    {move' : β → β} {f : Parsed (List Draft) (ts.length + 1) → Parse β n'}
    {f' : Parsed (List Draft) ((joined lines ts more).length + 1) → Parse β m'}
    (hs : ∀ r, statements ends ts = .ok r → Over more r.rest ∧ (Guarded more r.rest →
      ∃ h, Hoist.statements ends (joined lines ts more) =
        .ok ⟨r.value.map (Draft.moved lines), joined lines r.rest more, h⟩))
    (hend : ∀ a h r, f ⟨a, [], h⟩ ≠ .ok r)
    (hf : ∀ a rest h h', Guarded more rest → Joins lines more Q move' (f ⟨a, rest, h⟩)
      (f' ⟨a.map (Draft.moved lines), joined lines rest more, h'⟩)) :
    Joins lines more Q move' (Hoist.statements ends ts >>= f)
      (Hoist.statements ends (joined lines ts more) >>= f') := by
  intro r hr
  cases hx : Hoist.statements ends ts with
  | error => rw [hx] at hr; cases hr
  | ok p =>
    rw [hx] at hr
    obtain ⟨a, rest, h⟩ := p
    obtain ⟨hover, hjoined⟩ := hs _ hx
    obtain rfl | hg := hover
    · exact absurd hr (hend _ _ _)
    · obtain ⟨h', he⟩ := hjoined hg
      rw [he]
      exact hf a rest h h' hg r hr

end Statements

end Hoist
