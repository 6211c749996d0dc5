import Hoist.Grammar
import Hoist.Proofs.Opening
import Hoist.Proofs.Planting

namespace Hoist

/-- A value of a certain sort is read from the front of some tokens, and tokens of certain kinds are
left. -/
def Yields {α : Type} {n : Nat} (x : Parse α n) (P : α → Prop) (ks : List TokenKind) : Prop :=
  ∃ a rest h, x = .ok ⟨a, rest, h⟩ ∧ P a ∧ rest.map Token.kind = ks

namespace Yields

variable {α β : Type} {n m : Nat} {P : α → Prop} {Q : β → Prop} {ks ks' : List TokenKind}

/-- One part is read after the other. -/
theorem bind {x : Parse α n} {f : Parsed α n → Parse β m} (hx : Yields x P ks)
    (hf : ∀ a rest h, P a → rest.map Token.kind = ks → Yields (f ⟨a, rest, h⟩) Q ks') :
    Yields (x >>= f) Q ks' := by
  obtain ⟨a, rest, h, rfl, ha, hrest⟩ := hx
  exact hf a rest h ha hrest

theorem pure {a : α} {rest : List Token} {h : rest.length < n} (ha : P a)
    (hrest : rest.map Token.kind = ks) : Yields (.ok ⟨a, rest, h⟩) P ks :=
  ⟨a, rest, h, rfl, ha, hrest⟩

theorem imp {P' : α → Prop} {x : Parse α n} (h : Yields x P ks) (hp : ∀ a, P a → P' a) :
    Yields x P' ks := by
  obtain ⟨a, rest, hlt, hx, ha, hrest⟩ := h
  exact ⟨a, rest, hlt, hx, hp a ha, hrest⟩

end Yields

/-- A token of a kind in front of others. -/
theorem exists_token {ts : List Token} {k : TokenKind} {ks : List TokenKind}
    (h : ts.map Token.kind = k :: ks) :
    ∃ span rest, ts = ⟨k, span⟩ :: rest ∧ rest.map Token.kind = ks := by
  obtain ⟨⟨_, span⟩, rest, rfl, rfl, hrest⟩ := List.map_eq_cons_iff.mp h
  exact ⟨span, rest, rfl, hrest⟩

theorem expect_yields {kind : TokenKind} {ts : List Token} {ks : List TokenKind}
    (h : ts.map Token.kind = kind :: ks) : Yields (expect kind ts) (fun _ => True) ks := by
  obtain ⟨span, rest, rfl, hrest⟩ := exists_token h
  rw [expect, if_pos rfl]
  exact .pure trivial hrest

theorem take?_none {α : Type} {f : TokenKind → Option α} {ts : List Token} {ks : List TokenKind}
    (h : ts.map Token.kind = ks) (hf : ∀ k ∈ ks.head?, f k = none) : take? f ts = none := by
  subst h
  cases ts with
  | nil => rfl
  | cons t rest =>
    have ht := hf t.kind (by simp)
    rw [take?, ht]
    rfl

theorem eat?_none {kind : TokenKind} {ts : List Token} {ks : List TokenKind}
    (h : ts.map Token.kind = ks) (hk : ks.head? ≠ some kind) : eat? kind ts = none := by
  refine take?_none h fun k hm => if_neg ?_
  rintro rfl
  exact hk hm

theorem take?_some {α : Type} {f : TokenKind → Option α} {ts : List Token} {k : TokenKind}
    {ks : List TokenKind} {a : α} (h : ts.map Token.kind = k :: ks) (hf : f k = some a) :
    ∃ span rest h, take? f ts = some ⟨(a, span), rest, h⟩ ∧ rest.map Token.kind = ks := by
  obtain ⟨span, rest, rfl, hrest⟩ := exists_token h
  refine ⟨span, rest, by simp, ?_, hrest⟩
  simp [take?, hf]

theorem eat?_some {kind : TokenKind} {ts : List Token} {ks : List TokenKind}
    (h : ts.map Token.kind = kind :: ks) :
    ∃ span rest h, eat? kind ts = some ⟨((), span), rest, h⟩ ∧ rest.map Token.kind = ks :=
  take?_some h (if_pos rfl)

theorem expectName_yields {x : String} {ts : List Token} {ks : List TokenKind}
    (h : ts.map Token.kind = .symbol x :: ks) :
    Yields (expectName ts) (fun r => r.1 = x) ks := by
  obtain ⟨span, rest, rfl, hrest⟩ := exists_token h
  exact .pure rfl hrest

/-- A word is a reserved word with its spelling, or a name. -/
theorem ofWord_eq (x : String) :
    (∃ k : Keyword, TokenKind.ofWord x = .keyword k ∧ k.spelling = x) ∨
      TokenKind.ofWord x = .symbol x := by
  unfold TokenKind.ofWord
  split
  · rename_i k hk
    exact .inl ⟨k, rfl, by simpa using List.find?_some hk⟩
  · exact .inr rfl

theorem propertyName_yields {x : String} {ts : List Token} {ks : List TokenKind}
    (h : ts.map Token.kind = .ofWord x :: ks) :
    Yields (propertyName ts) (fun r => r.1 = x) ks := by
  obtain ⟨span, rest, rfl, hrest⟩ := exists_token h
  rcases ofWord_eq x with ⟨k, hk, hx⟩ | hx
  · rw [hk]
    exact .pure hx hrest
  · rw [hx]
    exact .pure rfl hrest

theorem entryKey_yields {x : String} {ts : List Token} {ks : List TokenKind}
    (h : ts.map Token.kind = .ofWord x :: ks ∨ ts.map Token.kind = .text x :: ks) :
    Yields (entryKey ts) (fun r => r.1 = x) ks := by
  rcases h with h | h
  · have hname := propertyName_yields h
    obtain ⟨span, rest, rfl, hrest⟩ := exists_token h
    rcases ofWord_eq x with ⟨k, hk, -⟩ | hx
    · rw [hk] at hname ⊢
      exact hname
    · rw [hx] at hname ⊢
      exact hname
  · obtain ⟨span, rest, rfl, hrest⟩ := exists_token h
    exact .pure rfl hrest

theorem statementEnd_yields {ts : List Token} {ks : List TokenKind}
    (h : ts.map Token.kind = .mark .semicolon :: ks) :
    Yields (statementEnd ts) (fun _ => True) ks := by
  obtain ⟨span, rest, rfl, hrest⟩ := exists_token h
  exact .pure trivial hrest

theorem optionalName_yields {x : Option String} {ts : List Token} {ks : List TokenKind}
    (h : ts.map Token.kind = (x.map TokenKind.symbol).toList ++ ks)
    (hks : ∀ y, ks.head? ≠ some (.symbol y)) :
    Yields (optionalName ts) (fun r => r = x) ks := by
  cases x with
  | some x =>
    obtain ⟨span, rest, rfl, hrest⟩ := exists_token h
    exact .pure rfl hrest
  | none =>
    unfold optionalName
    split
    · rename_i y span rest
      rw [Option.map_none, Option.toList_none, List.nil_append] at h
      subst h
      exact absurd rfl (hks y)
    · exact .pure rfl h

theorem parameters_yields {params : List String} {ts : List Token} {ks : List TokenKind}
    (h : ts.map Token.kind = pieceTokens (Piece.comma.intercalate (params.map fun p =>
      [Piece.symbol p])) ++ .mark .closeParen :: ks) :
    Yields (parameters ts) (fun r => r = params) ks := by
  induction params generalizing ts with
  | nil =>
    obtain ⟨span, rest, rfl, hrest⟩ := exists_token h
    unfold parameters
    exact .pure rfl hrest
  | cons x params ih =>
    cases params with
    | nil =>
      obtain ⟨span, rest, rfl, hrest⟩ := exists_token h
      unfold parameters
      obtain ⟨last, rest', rfl, hrest'⟩ := exists_token hrest
      exact .bind (expect_yields hrest) fun _ _ _ _ hks => .pure rfl hks
    | cons y params =>
      rw [List.map_cons, List.map_cons, List.intercalate_cons_cons] at h
      obtain ⟨span, rest, rfl, hrest⟩ := exists_token h
      obtain ⟨last, rest', rfl, hrest'⟩ := exists_token hrest
      unfold parameters
      refine .bind (ih hrest') fun others _ _ ho hks => ?_
      subst ho
      exact .pure rfl hks

end Hoist
