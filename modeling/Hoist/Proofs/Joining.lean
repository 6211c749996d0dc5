import Hoist.Proofs.Data

namespace Hoist

/-- A place after lines were put in front of its text. What stands in no text stays there. -/
def Position.moved (lines : Nat) (p : Position) : Position :=
  if p.line = 0 then p else ⟨p.line + lines, p.column⟩

def Span.moved (lines : Nat) (s : Span) : Span := ⟨s.start.moved lines, s.finish.moved lines⟩

def Token.moved (lines : Nat) (t : Token) : Token := ⟨t.kind, t.span.moved lines⟩

/-- A draft of a text that other lines were put in front of. -/
def Draft.moved (lines : Nat) : Draft → Draft
  | .node kind span before after =>
    .node kind (span.moved lines) (before.map (moved lines)) (after.map (moved lines))
  | .declarations ds => .declarations (ds.map (moved lines))

@[simp] theorem Position.moved_zero (p : Position) : p.moved 0 = p := by
  unfold moved
  split
  · rfl
  · simp

@[simp] theorem Span.moved_zero (s : Span) : s.moved 0 = s := by
  simp [moved]

@[simp] theorem Token.moved_zero (t : Token) : t.moved 0 = t := by
  simp [moved]

@[simp] theorem Token.kind_moved (lines : Nat) (t : Token) : (t.moved lines).kind = t.kind := rfl

mutual

theorem Draft.moved_zero : (d : Draft) → d.moved 0 = d
  | .node kind span before after => by
    rw [moved, Span.moved_zero, all_moved_zero before, all_moved_zero after]
  | .declarations ds => by rw [moved, all_moved_zero ds]

theorem Draft.all_moved_zero : (ds : List Draft) → ds.map (Draft.moved 0) = ds
  | [] => rfl
  | d :: ds => by rw [List.map_cons, Draft.moved_zero d, all_moved_zero ds]

end

@[simp] theorem Draft.kind_moved (lines : Nat) (d : Draft) : (d.moved lines).kind = d.kind := by
  cases d <;> rw [moved] <;> rfl

/-- Tokens below some lines, with more tokens behind them. -/
def joined (lines : Nat) (ts more : List Token) : List Token := ts.map (Token.moved lines) ++ more

/-- Nothing is put behind tokens, or they end in a semicolon. -/
def Guarded (more ts : List Token) : Prop :=
  more = [] ∨ ts.getLast?.map Token.kind = some (.mark .semicolon)

/-- What is read from the front of some tokens is read from the front of joined tokens too. -/
def Joins {α : Type} {n m : Nat} (lines : Nat) (more : List Token) (P : List Token → Prop)
    (move : α → α) (x : Parse α n) (x' : Parse α m) : Prop :=
  ∀ r, x = .ok r → P r.rest ∧ ∃ h, x' = .ok ⟨move r.value, joined lines r.rest more, h⟩

section

variable {lines : Nat} {ts more : List Token}

theorem length_joined : (joined lines ts more).length = ts.length + more.length := by
  simp [joined]

theorem Guarded.tail {t : Token} (h : Guarded more (t :: ts)) (ht : t.kind ≠ .mark .semicolon) :
    Guarded more ts := by
  refine h.imp_right fun h => ?_
  cases ts with
  | nil => exact absurd (Option.some.inj h) ht
  | cons u ts => rwa [List.getLast?_cons_cons] at h

/-- What is left behind a statement: nothing, or what can be joined to other tokens. -/
def Over (more ts : List Token) : Prop := ts = [] ∨ Guarded more ts

theorem Over.tail {t : Token} (h : Guarded more (t :: ts)) : Over more ts := by
  cases ts with
  | nil => exact .inl rfl
  | cons u ts =>
    refine .inr (h.imp_right fun h => ?_)
    rwa [List.getLast?_cons_cons] at h

end

namespace Joins

variable {α β : Type} {n m n' m' lines : Nat} {ts more : List Token} {P Q : List Token → Prop}
  {move : α → α} {move' : β → β}

/-- One part is read after the other. -/
theorem bind {x : Parse α n} {x' : Parse α m} {f : Parsed α n → Parse β n'}
    {f' : Parsed α m → Parse β m'} (hx : Joins lines more P move x x')
    (hf : ∀ a rest h h', P rest → Joins lines more Q move' (f ⟨a, rest, h⟩)
      (f' ⟨move a, joined lines rest more, h'⟩)) :
    Joins lines more Q move' (x >>= f) (x' >>= f') := by
  intro r hr
  cases x with
  | error => cases hr
  | ok p =>
    obtain ⟨hp, h', rfl⟩ := hx p rfl
    exact hf p.value p.rest p.shorter h' hp r hr

theorem pure {a b : α} {h : ts.length < n} {h' : (joined lines ts more).length < m} (hp : P ts)
    (hb : b = move a) : Joins lines more P move (.ok ⟨a, ts, h⟩) (.ok ⟨b, joined lines ts more, h'⟩) := by
  rintro r ⟨⟩
  exact ⟨hp, h', by rw [hb]⟩

theorem error {fault : Fault} {x' : Parse α m} :
    Joins lines more P move (.error fault : Parse α n) x' := by
  intro r hr
  cases hr

theorem imp {x : Parse α n} {x' : Parse α m} (h : Joins lines more P move x x')
    (hp : ∀ ts, P ts → Q ts) : Joins lines more Q move x x' := by
  intro r hr
  obtain ⟨hrest, hx⟩ := h r hr
  exact ⟨hp _ hrest, hx⟩

/-- A target is checked by what it is. -/
theorem checked {use : TargetUse} {target : Draft} {x : Parse α n} {x' : Parse α m}
    (h : Joins lines more P move x x') : Joins lines more P move (do checkTarget use target; x)
      (do checkTarget use (target.moved lines); x') := by
  simp only [checkTarget, Draft.kind_moved]
  split
  · exact h
  · exact .error

end Joins

section Tokens

variable {α : Type} {lines : Nat} {ts more : List Token}

end Tokens

end Hoist
