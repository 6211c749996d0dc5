import Hoist.Grammar
import Hoist.Proofs.Legible

namespace Hoist

/-- All tokens can be read from a text. -/
def LegibleTokens (ts : List Token) : Prop := ∀ t ∈ ts, t.kind.isLegible = true

/-- What is read from the front of legible tokens is as described, and a rest of them is left. Where
nothing is read the program is at fault. -/
def Reads {α : Type} {n : Nat} (P : α → Prop) (ts : List Token) (x : Parse α n) : Prop :=
  LegibleTokens ts →
    match x with
    | .ok r => P r.value ∧ r.rest <:+ ts
    | .error fault => fault.cause.category = .program

theorem LegibleTokens.suffix {ts rest : List Token} (h : LegibleTokens ts) (hs : rest <:+ ts) :
    LegibleTokens rest := fun t ht => h t (hs.mem ht)

namespace Reads

variable {α β : Type} {n m : Nat} {P : α → Prop} {Q : β → Prop} {ts : List Token}

/-- The part of a run of tokens behind some of them. -/
theorem of_suffix {x : Parse α n} {rest : List Token} (h : Reads P rest x) (hs : rest <:+ ts) :
    Reads P ts x := by
  intro hl
  cases x with
  | error fault => exact h (hl.suffix hs)
  | ok p => exact ⟨(h (hl.suffix hs)).1, (h (hl.suffix hs)).2.trans hs⟩

/-- One part is read after the other. -/
theorem bind {x : Parse α n} {f : Parsed α n → Parse β m} (hx : Reads P ts x)
    (hf : ∀ a rest h, P a → rest <:+ ts → Reads Q rest (f ⟨a, rest, h⟩)) :
    Reads Q ts (x >>= f) := by
  intro hl
  cases x with
  | error fault => exact hx hl
  | ok p =>
    obtain ⟨hp, hs⟩ := hx hl
    exact (hf p.value p.rest p.shorter hp hs).of_suffix hs hl

/-- What is read is also as described more weakly. -/
theorem imp {P' : α → Prop} {x : Parse α n} (h : Reads P ts x) (hp : ∀ a, P a → P' a) :
    Reads P' ts x := by
  intro hl
  cases x with
  | error fault => exact h hl
  | ok p => exact ⟨hp _ (h hl).1, (h hl).2⟩

theorem pure {a : α} {rest : List Token} {h : rest.length < n} (ha : P a) (hs : rest <:+ ts) :
    Reads P ts (.ok ⟨a, rest, h⟩) := by
  exact fun _ => ⟨ha, hs⟩

theorem error {fault : Fault} (h : fault.cause.category = .program) :
    Reads P ts (.error fault : Parse α n) := fun _ => h

/-- The first token is legible too. -/
theorem of_first {x : Parse α n} {t : Token} {rest : List Token}
    (h : t.kind.isLegible = true → Reads P (t :: rest) x) : Reads P (t :: rest) x :=
  fun hl => h (hl t List.mem_cons_self) hl

end Reads

theorem expect_reads (kind : TokenKind) (ts : List Token) :
    Reads (fun _ => True) ts (expect kind ts) := by
  unfold expect
  split
  · split
    · exact .pure trivial (List.suffix_cons _ _)
    · exact .error rfl
  · exact .error rfl

theorem expectName_reads (ts : List Token) :
    Reads (fun r => isSymbol r.1) ts (expectName ts) := by
  unfold expectName
  split
  · exact .of_first fun hname => .pure hname (List.suffix_cons _ _)
  · exact .error rfl

theorem propertyName_reads (ts : List Token) :
    Reads (fun r => isNameLike r.1) ts (propertyName ts) := by
  unfold propertyName
  split
  · refine .of_first fun hname => .pure ?_ (List.suffix_cons _ _)
    have hs : isSymbol _ = true := hname
    rw [isSymbol, Bool.and_eq_true] at hs
    exact hs.1
  · exact .pure (isNameLike_spelling _) (List.suffix_cons _ _)
  · exact .error rfl

theorem entryKey_reads (ts : List Token) : Reads (fun _ => True) ts (entryKey ts) := by
  unfold entryKey
  split
  · exact .pure trivial (List.suffix_cons _ _)
  · exact .pure trivial (List.suffix_cons _ _)
  · exact (propertyName_reads _).imp fun _ _ => trivial

theorem statementEnd_reads (ts : List Token) : Reads (fun _ => True) ts (statementEnd ts) := by
  unfold statementEnd
  split
  · exact .pure trivial (List.suffix_cons _ _)
  · exact .pure trivial (List.suffix_refl _)
  · exact .pure trivial (List.suffix_refl _)
  · exact .error rfl

theorem optionalName_reads (ts : List Token) :
    Reads (fun r => r.all isSymbol) ts (optionalName ts) := by
  unfold optionalName
  split
  · exact .of_first fun hname => .pure hname (List.suffix_cons _ _)
  · exact .pure rfl (List.suffix_refl _)

theorem parameters_reads (ts : List Token) :
    Reads (fun r => r.all isSymbol) ts (parameters ts) := by
  suffices h : ∀ (n : Nat) (ts : List Token), ts.length < n →
      Reads (fun r => r.all isSymbol) ts (parameters ts) from h _ ts (Nat.lt_succ_self _)
  intro n
  induction n with
  | zero => exact fun _ h => absurd h (Nat.not_lt_zero _)
  | succ n ih =>
    intro ts hlt
    unfold parameters
    split
    · exact .pure rfl (List.suffix_cons _ _)
    · rename_i name _ _ more
      refine .of_first fun hname => .of_suffix ((ih more ?_).bind fun others rest h ho hs =>
        .pure ?_ (List.suffix_refl _)) ((List.suffix_cons _ _).trans (List.suffix_cons _ _))
      · simp only [List.length_cons] at hlt
        omega
      · exact List.all_cons.trans (Bool.and_eq_true_iff.mpr ⟨hname, ho⟩)
    · rename_i name _ more _
      refine .of_first fun hname => .of_suffix ((expect_reads _ more).bind fun _ rest h _ hs =>
        .pure ?_ (List.suffix_refl _)) (List.suffix_cons _ _)
      exact List.all_cons.trans (Bool.and_eq_true_iff.mpr ⟨hname, rfl⟩)
    · exact .error rfl

/-- What an optional token leaves. -/
theorem suffix_of_take? {α : Type} {f : TokenKind → Option α} {ts : List Token}
    {r : Parsed (α × Span) ts.length} (h : take? f ts = some r) :
    r.rest <:+ ts ∧ ∃ t ∈ ts, f t.kind = some r.value.1 := by
  unfold take? at h
  split at h
  · rename_i t rest
    cases hf : f t.kind with
    | none => rw [hf] at h; cases h
    | some a =>
      rw [hf] at h
      obtain rfl := Option.some.inj h
      exact ⟨List.suffix_cons _ _, t, List.mem_cons_self, hf⟩
  · cases h

end Hoist
