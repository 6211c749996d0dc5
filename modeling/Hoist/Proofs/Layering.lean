import Hoist.Grammar

namespace Hoist

/-- The layers of operators between two operands. -/
inductive Layer
  | equality
  | relation
  | addition
  | multiplication

/-- The operators of a layer. -/
def Layer.operators : Layer → List BinaryOp
  | .equality => [.equal, .notEqual, .strictEqual, .strictNotEqual]
  | .relation => [.less, .greater, .lessEqual, .greaterEqual]
  | .addition => [.add, .subtract]
  | .multiplication => [.multiply, .divide, .modulus]

/-- The operator of a layer that a token is, if it is one. -/
def Layer.operator? (layer : Layer) (k : TokenKind) : Option BinaryOp :=
  (binaryOp? k).filter fun op => op ∈ layer.operators

/-- The operators of a layer behind an operand, which group to the left, with the operands between
them. -/
def layerTail (layer : Layer) (operand : (ts : List Token) → Parse Draft ts.length) (left : Draft)
    (ts : List Token) : Parse Draft (ts.length + 1) :=
  match ts with
  | [] => return ⟨left, [], by simp⟩
  | t :: more =>
    match layer.operator? t.kind with
    | none => return ⟨left, t :: more, Nat.lt_succ_self _⟩
    | some op => do
      let ⟨right, rest, h⟩ ← operand more
      let ⟨value, rest', h'⟩ ←
        layerTail layer operand (.spanning (.binary op) left right [left, right]) rest
      return ⟨value, rest', by simp only [List.length_cons]; omega⟩
termination_by ts.length

/-- Goes on reading behind an operand. -/
def readOn {n : Nat} (x : Parse Draft n)
    (tail : Draft → (ts : List Token) → Parse Draft (ts.length + 1)) : Parse Draft n := do
  let ⟨left, rest, h⟩ ← x
  let ⟨value, rest', h'⟩ ← tail left rest
  return ⟨value, rest', by omega⟩

/-- Operands between the operators of a layer. -/
def layered (layer : Layer) (operand : (ts : List Token) → Parse Draft ts.length)
    (ts : List Token) : Parse Draft ts.length :=
  readOn (operand ts) (layerTail layer operand)

/-- Operands between `*`, `/` and `%`. -/
def multiplication : (ts : List Token) → Parse Draft ts.length := layered .multiplication unary

/-- Operands between `+` and `-`. -/
def addition : (ts : List Token) → Parse Draft ts.length := layered .addition multiplication

/-- Operands between `<`, `>`, `<=` and `>=`. -/
def relation : (ts : List Token) → Parse Draft ts.length := layered .relation addition

/-- Operands between `==`, `!=`, `===` and `!==`. -/
def equality : (ts : List Token) → Parse Draft ts.length := layered .equality relation

/-- Reads what stands behind an operator and goes on behind both operands. -/
def readGroup {n : Nat} (op : BinaryOp) (left : Draft) (x : Parse Draft n)
    (tail : Draft → (ts : List Token) → Parse Draft (ts.length + 1)) : Parse Draft (n + 2) := do
  let ⟨right, rest, h⟩ ← x
  let ⟨value, rest', h'⟩ ← tail (.spanning (.binary op) left right [left, right]) rest
  return ⟨value, rest', by omega⟩

theorem length_lt_next (ts : List Token) : ts.length < ts.length + 1 := Nat.lt_succ_self _

/-- Goes on no further. -/
def readNothing (left : Draft) (ts : List Token) : Parse Draft (ts.length + 1) :=
  .ok ⟨left, ts, length_lt_next ts⟩

section Reading

variable {n : Nat} {f g : Draft → (ts : List Token) → Parse Draft (ts.length + 1)}
  {op : BinaryOp} {left : Draft}

theorem readOn_nothing (x : Parse Draft n) : readOn x readNothing = x := by
  cases x <;> rfl

theorem nothing_readOn (ts : List Token) : readOn (readNothing left ts) g = g left ts := by
  show readOn (.ok _) g = _
  rw [readOn]
  cases hg : g left ts <;> simp [bind, Except.bind, hg, pure, Except.pure]

theorem readOn_assoc (x : Parse Draft n) :
    readOn (readOn x f) g = readOn x fun left ts => readOn (f left ts) g := by
  cases x with
  | error => rfl
  | ok r =>
    simp only [readOn, bind, Except.bind]
    cases f r.value r.rest with
    | error => rfl
    | ok p =>
      dsimp only [pure, Except.pure]
      cases g p.value p.rest <;> rfl

theorem readGroup_readOn (x : Parse Draft n) :
    readOn (readGroup op left x f) g = readGroup op left x fun left ts => readOn (f left ts) g := by
  cases x with
  | error => rfl
  | ok r =>
    simp only [readOn, readGroup, bind, Except.bind]
    cases f (.spanning (.binary op) left r.value [left, r.value]) r.rest with
    | error => rfl
    | ok p =>
      dsimp only [pure, Except.pure]
      cases g p.value p.rest <;> rfl

theorem readGroup_congr {x : Parse Draft n}
    (h : ∀ r, x = .ok r → ∀ left, f left r.rest = g left r.rest) :
    readGroup op left x f = readGroup op left x g := by
  cases x with
  | error => rfl
  | ok r => simp only [readGroup, bind, Except.bind, h r rfl]

theorem rest_of_readOn {x : Parse Draft n} {r : Parsed Draft n} (h : readOn x f = .ok r) :
    ∃ (left : Draft) (ts : List Token) (q : Parsed Draft (ts.length + 1)),
      f left ts = .ok q ∧ r.rest = q.rest := by
  cases x with
  | error => cases h
  | ok p =>
    simp only [readOn, bind, Except.bind] at h
    cases hq : f p.value p.rest with
    | error => rw [hq] at h; cases h
    | ok q =>
      rw [hq] at h
      cases h
      exact ⟨_, _, q, hq, rfl⟩

theorem rest_of_readGroup {x : Parse Draft n} {r : Parsed Draft (n + 2)}
    (h : readGroup op left x f = .ok r) :
    ∃ (left : Draft) (p : Parsed Draft n) (q : Parsed Draft (p.rest.length + 1)),
      f left p.rest = .ok q ∧ r.rest = q.rest := by
  cases x with
  | error => cases h
  | ok p =>
    simp only [readGroup, bind, Except.bind] at h
    cases hq : f (.spanning (.binary op) left p.value [left, p.value]) p.rest with
    | error => rw [hq] at h; cases h
    | ok q =>
      rw [hq] at h
      cases h
      exact ⟨_, p, q, hq, rfl⟩

end Reading

variable {level : Nat} {left : Draft} {t : Token} {more : List Token} {op : BinaryOp}

/-- Whether the operators of a level or of a tighter one may stand in front of some tokens. -/
def Continues (level : Nat) (ts : List Token) : Prop :=
  ∃ t more op, ts = t :: more ∧ binaryOp? t.kind = some op ∧ level ≤ op.precedence

/-- Nothing is read where no operator of a level or a tighter one comes next. -/
theorem operationTail_nothing {ts : List Token} (h : ¬ Continues level ts) :
    operationTail level left ts = readNothing left ts := by
  unfold operationTail
  split
  · rfl
  · rename_i t more
    split
    · rfl
    · rename_i op hop
      rw [if_pos]
      · rfl
      · exact Nat.lt_of_not_le fun hl => h ⟨t, more, op, rfl, hop, hl⟩

theorem operationTail_group (hop : binaryOp? t.kind = some op) (hl : level ≤ op.precedence) :
    operationTail level left (t :: more) =
      readGroup op left (operation (op.precedence + 1) more) (operationTail level) := by
  unfold operationTail
  split
  · rename_i h
    rw [hop] at h
    cases h
  · rename_i h
    obtain rfl := Option.some.inj (hop.symm.trans h)
    rw [if_neg (Nat.not_lt.mpr hl)]
    rfl

theorem operation_eq (ts : List Token) :
    operation level ts = readOn (unary ts) (operationTail level) := by
  rw [operation]
  rfl

/-- What follows operands of a level is no operator of the level. -/
theorem not_continues_operationTail {ts : List Token} {r : Parsed Draft (ts.length + 1)}
    (h : operationTail level left ts = .ok r) : ¬ Continues level r.rest := by
  suffices hall : ∀ (n : Nat) (left : Draft) (ts : List Token), ts.length < n →
      ∀ r, operationTail level left ts = .ok r → ¬ Continues level r.rest from
    hall _ left ts (Nat.lt_succ_self _) r h
  intro n
  induction n with
  | zero => exact fun _ _ h => absurd h (Nat.not_lt_zero _)
  | succ n ih =>
    intro left ts hlt r h
    by_cases hc : Continues level ts
    · obtain ⟨t, more, op, rfl, hop, hl⟩ := hc
      rw [operationTail_group hop hl] at h
      obtain ⟨left, p, q, hq, hrest⟩ := rest_of_readGroup h
      rw [hrest]
      have hp := p.shorter
      simp only [List.length_cons] at hlt
      exact ih left p.rest (by omega) q hq
    · rw [operationTail_nothing hc] at h
      cases h
      exact hc

theorem not_continues_operation {ts : List Token} {r : Parsed Draft ts.length}
    (h : operation level ts = .ok r) : ¬ Continues level r.rest := by
  rw [operation_eq] at h
  obtain ⟨left, rest, q, hq, hrest⟩ := rest_of_readOn h
  rw [hrest]
  exact not_continues_operationTail hq

theorem layerTail_nothing {layer : Layer} {operand : (ts : List Token) → Parse Draft ts.length}
    {ts : List Token} (h : ∀ t more, ts = t :: more → layer.operator? t.kind = none) :
    layerTail layer operand left ts = readNothing left ts := by
  unfold layerTail
  split
  · rfl
  · rename_i t more
    split
    · rfl
    · rename_i op hop
      rw [h t more rfl] at hop
      cases hop

theorem layerTail_group {layer : Layer} {operand : (ts : List Token) → Parse Draft ts.length}
    (hop : layer.operator? t.kind = some op) :
    layerTail layer operand left (t :: more) =
      readGroup op left (operand more) (layerTail layer operand) := by
  rw [layerTail]
  split
  · rename_i h
    rw [hop] at h
    cases h
  · rename_i h
    obtain rfl := Option.some.inj (hop.symm.trans h)
    rfl

variable {layer : Layer}

theorem operator?_of_mem (hop : binaryOp? t.kind = some op) (hm : op ∈ layer.operators) :
    layer.operator? t.kind = some op := by
  rw [Layer.operator?, hop, Option.filter_some, if_pos (by simpa using hm)]

theorem operator?_none (h : ∀ op, binaryOp? t.kind = some op → op ∉ layer.operators) :
    layer.operator? t.kind = none := by
  rw [Layer.operator?, Option.filter_eq_none_iff]
  intro op hop
  simpa using h op hop

/-- The operators from a level on are those of the layer of that level and the tighter ones, which
are read first. -/
theorem operationTail_layer (hlayer : ∀ op, op ∈ layer.operators ↔ op.precedence = level)
    (left : Draft) (ts : List Token) :
    operationTail level left ts =
      readOn (operationTail (level + 1) left ts) (layerTail layer (operation (level + 1))) := by
  suffices hall : ∀ (n : Nat) (left : Draft) (ts : List Token), ts.length < n →
      operationTail level left ts =
        readOn (operationTail (level + 1) left ts) (layerTail layer (operation (level + 1))) from
    hall _ left ts (Nat.lt_succ_self _)
  intro n
  induction n with
  | zero => exact fun _ _ h => absurd h (Nat.not_lt_zero _)
  | succ n ih =>
    intro left ts hlt
    by_cases hc : Continues level ts
    · obtain ⟨t, more, op, rfl, hop, hl⟩ := hc
      simp only [List.length_cons] at hlt
      rw [operationTail_group hop hl]
      by_cases hop' : level + 1 ≤ op.precedence
      · -- The operator is tighter than the layer, so both sides read its operands first.
        rw [operationTail_group hop hop', readGroup_readOn]
        exact readGroup_congr fun r _ left => ih left r.rest (by have := r.shorter; omega)
      · have hlevel : op.precedence = level := by omega
        have hstop : ¬ Continues (level + 1) (t :: more) := by
          rintro ⟨_, _, op', heq, hop', hl'⟩
          obtain ⟨rfl, rfl⟩ := List.cons.inj heq
          obtain rfl := Option.some.inj (hop.symm.trans hop')
          omega
        rw [operationTail_nothing hstop, nothing_readOn,
          layerTail_group (operator?_of_mem hop ((hlayer op).mpr hlevel)), hlevel]
        -- Behind the operand no tighter operator is left.
        refine readGroup_congr fun r hr left => ?_
        rw [ih left r.rest (by have := r.shorter; omega),
          operationTail_nothing (not_continues_operation hr), nothing_readOn]
    · have hstop : ¬ Continues (level + 1) ts := fun ⟨t, more, op, hts, hop, hl⟩ =>
        hc ⟨t, more, op, hts, hop, by omega⟩
      rw [operationTail_nothing hc, operationTail_nothing hstop, nothing_readOn,
        layerTail_nothing]
      rintro t more rfl
      exact operator?_none fun op hop hm =>
        hc ⟨t, more, op, rfl, hop, Nat.le_of_eq ((hlayer op).mp hm).symm⟩

/-- Operands of a level are operands of the next level between the operators of its layer. -/
theorem operation_layer (layer : Layer)
    (hlayer : ∀ op, op ∈ layer.operators ↔ op.precedence = level) (ts : List Token) : operation level ts = layered layer (operation (level + 1)) ts := by
  rw [layered, operation_eq, operation_eq, readOn_assoc]
  congr 1
  funext left ts
  exact operationTail_layer hlayer left ts

/-- What is read depends only on which operators are tight enough. -/
theorem operationTail_congr {m : Nat}
    (h : ∀ op : BinaryOp, level ≤ op.precedence ↔ m ≤ op.precedence) (left : Draft)
    (ts : List Token) : operationTail level left ts = operationTail m left ts := by
  suffices hall : ∀ (n : Nat) (left : Draft) (ts : List Token), ts.length < n →
      operationTail level left ts = operationTail m left ts from
    hall _ left ts (Nat.lt_succ_self _)
  intro n
  induction n with
  | zero => exact fun _ _ h => absurd h (Nat.not_lt_zero _)
  | succ n ih =>
    intro left ts hlt
    by_cases hc : Continues level ts
    · obtain ⟨t, more, op, rfl, hop, hl⟩ := hc
      simp only [List.length_cons] at hlt
      rw [operationTail_group hop hl, operationTail_group hop ((h op).mp hl)]
      exact readGroup_congr fun r _ left => ih left r.rest (by have := r.shorter; omega)
    · have hstop : ¬ Continues m ts := fun ⟨t, more, op, hts, hop, hl⟩ =>
        hc ⟨t, more, op, hts, hop, (h op).mpr hl⟩
      rw [operationTail_nothing hc, operationTail_nothing hstop]

theorem operation_congr {m : Nat}
    (h : ∀ op : BinaryOp, level ≤ op.precedence ↔ m ≤ op.precedence) (ts : List Token) :
    operation level ts = operation m ts := by
  rw [operation_eq, operation_eq]
  congr 1
  funext left ts
  exact operationTail_congr h left ts

theorem operation_top : operation 14 = unary := by
  funext ts
  have hstop : operationTail 14 = readNothing := by
    funext left ts
    refine operationTail_nothing ?_
    rintro ⟨_, _, op, _, _, hl⟩
    cases op <;> exact absurd hl (by decide)
  rw [operation_eq, hstop, readOn_nothing]

/-- Climbing through the precedences of operators reads the same from any tokens as going down
through the layers of operators, one after the other: the same nodes, made in the same order and
over the same stretches of the text, with the same rest, or the same fault. -/
theorem operation_eq_equality (ts : List Token) : operation 0 ts = equality ts := by
  have hmultiplication : operation 13 = multiplication := by
    funext ts
    rw [operation_layer .multiplication fun op => by cases op <;> decide, operation_top]
    rfl
  have haddition : operation 12 = addition := by
    funext ts
    rw [operation_layer .addition fun op => by cases op <;> decide, hmultiplication]
    rfl
  have hrelation : operation 10 = relation := by
    funext ts
    have heleven : operation 11 = operation 12 :=
      funext (operation_congr fun op => by cases op <;> decide)
    rw [operation_layer .relation fun op => by cases op <;> decide, heleven, haddition]
    rfl
  have hequality : operation 9 = equality := by
    funext ts
    rw [operation_layer .equality fun op => by cases op <;> decide, hrelation]
    rfl
  rw [operation_congr (m := 9) fun op => by cases op <;> decide, hequality]

end Hoist
