import Hoist.Proofs.Yielding

namespace Hoist

/-- A shape whose nodes are marked as constants where their kinds make them some. -/
def Shape.marked : Shape → Shape
  | .node kind _ ss => .node kind kind.isConstant (ss.map marked)

/-- A draft makes one node, which has a certain shape. -/
def Draft.Draws (s : Shape) (d : Draft) : Prop := d.shapes = [s.marked]

/-- How tightly a token binds the operand in front of it, on the scale of `Kind.level?`. A token
that ends the operand does not. -/
def TokenKind.tightness : TokenKind → Nat
  | .mark .comma => 1
  | .mark .question | .mark .assign | .mark .addAssign | .mark .subtractAssign
  | .mark .multiplyAssign | .mark .divideAssign | .mark .modulusAssign => 4
  | .mark .or_ => 5
  | .mark .and_ => 6
  | .mark .increment | .mark .decrement => 16
  | .mark .dot | .mark .openBracket | .mark .openParen => 18
  | k => ((binaryOp? k).map BinaryOp.precedence).getD 0

/-- The next token binds looser than a level. -/
def Stops (level : Nat) (ks : List TokenKind) : Prop := ∀ k ∈ ks.head?, k.tightness < level

theorem Stops.mono {n m : Nat} {ks : List TokenKind} (h : Stops n ks) (hnm : n ≤ m) : Stops m ks :=
  fun k hk => Nat.lt_of_lt_of_le (h k hk) hnm

theorem Stops.cons {n : Nat} {k : TokenKind} (h : k.tightness < n) (ks : List TokenKind) :
    Stops n (k :: ks) := by
  intro l hl
  obtain rfl := Option.some.inj hl
  exact h

/-- A token that binds tighter does not come next. -/
theorem Stops.ne {n : Nat} {ks : List TokenKind} (h : Stops n ks) {k : TokenKind}
    (hk : n ≤ k.tightness) : ks.head? ≠ some k := by
  intro he
  have := h k he
  omega

theorem tightness_of_binaryOp? {k : TokenKind} {op : BinaryOp} (h : binaryOp? k = some op) :
    k.tightness = op.precedence := by
  cases k with
  | mark m => cases m <;> cases h <;> rfl
  | _ => cases h

theorem tightness_of_assignmentKind? {k : TokenKind} {kind : Kind}
    (h : assignmentKind? k = some kind) : k.tightness = 4 := by
  cases k with
  | mark m => cases m <;> cases h <;> rfl
  | _ => cases h

theorem tightness_of_stepOp? {k : TokenKind} {b : Bool} (h : stepOp? k = some b) :
    k.tightness = 16 := by
  cases k with
  | mark m => cases m <;> cases h <;> rfl
  | _ => cases h

theorem Stops.binaryOp? {n : Nat} {ks : List TokenKind} (h : Stops n ks) (hn : n ≤ 9) :
    ∀ k ∈ ks.head?, binaryOp? k = none := by
  intro k hk
  cases hop : Hoist.binaryOp? k with
  | none => rfl
  | some op =>
    have := h k hk
    have := tightness_of_binaryOp? hop
    cases op <;> simp_all [BinaryOp.precedence] <;> omega

theorem Stops.assignmentKind? {n : Nat} {ks : List TokenKind} (h : Stops n ks) (hn : n ≤ 4) :
    ∀ k ∈ ks.head?, assignmentKind? k = none := by
  intro k hk
  cases hkind : Hoist.assignmentKind? k with
  | none => rfl
  | some kind =>
    have := h k hk
    have := tightness_of_assignmentKind? hkind
    omega

theorem Stops.stepOp? {n : Nat} {ks : List TokenKind} (h : Stops n ks) (hn : n ≤ 16) :
    ∀ k ∈ ks.head?, stepOp? k = none := by
  intro k hk
  cases hop : Hoist.stepOp? k with
  | none => rfl
  | some b =>
    have := h k hk
    have := tightness_of_stepOp? hop
    omega

section Tails

variable {d : Draft} {ts : List Token} {ks : List TokenKind} {P : Draft → Prop}

theorem commaTail_stops (hd : P d) (h : ts.map Token.kind = ks) (hs : Stops 1 ks) :
    Yields (commaTail d ts) P ks := by
  unfold commaTail
  split
  · subst h
    exact absurd rfl (hs.ne (k := .mark .comma) (by decide))
  · exact .pure hd h

theorem orTail_stops (hd : P d) (h : ts.map Token.kind = ks) (hs : Stops 5 ks) :
    Yields (orTail d ts) P ks := by
  unfold orTail
  split
  · subst h
    exact absurd rfl (hs.ne (k := .mark .or_) (by decide))
  · exact .pure hd h

theorem andTail_stops (hd : P d) (h : ts.map Token.kind = ks) (hs : Stops 6 ks) :
    Yields (andTail d ts) P ks := by
  unfold andTail
  split
  · subst h
    exact absurd rfl (hs.ne (k := .mark .and_) (by decide))
  · exact .pure hd h

/-- No operator that binds tightly enough comes next. -/
theorem operationTail_stops {level n : Nat} (hd : P d) (h : ts.map Token.kind = ks)
    (hs : Stops n ks) (hn : n ≤ level ∨ n ≤ 9) : Yields (operationTail level d ts) P ks := by
  subst h
  unfold operationTail
  cases ts with
  | nil => exact .pure hd rfl
  | cons t more =>
    dsimp only
    split
    · exact .pure hd rfl
    · rename_i op hop
      have ht := hs t.kind rfl
      rw [tightness_of_binaryOp? hop] at ht
      rw [if_pos (by cases op <;> simp [BinaryOp.precedence] at * <;> omega)]
      exact .pure hd rfl

theorem accessTail_stops (calls : Bool) (hd : P d) (h : ts.map Token.kind = ks) (hs : Stops 18 ks) :
    Yields (accessTail calls d ts) P ks := by
  subst h
  unfold accessTail
  split
  · exact absurd rfl (hs.ne (k := .mark .dot) (by decide))
  · exact absurd rfl (hs.ne (k := .mark .openBracket) (by decide))
  · exact absurd rfl (hs.ne (k := .mark .openParen) (by decide))
  · exact .pure hd rfl

end Tails

/-- Pieces are read as a shape where the next token binds looser than a level. -/
def Closed (parse : (ts : List Token) → Parse Draft ts.length) (level : Nat) (ps : List Piece)
    (s : Shape) : Prop :=
  ∀ ts ks, ts.map Token.kind = pieceTokens ps ++ ks → Stops level ks →
    Yields (parse ts) (Draft.Draws s) ks

/-- Pieces are read as a shape where the next token binds looser than a level, and what follows is
read on from there. -/
def Entered (parse : (ts : List Token) → Parse Draft ts.length)
    (tail : Draft → (ts : List Token) → Parse Draft (ts.length + 1)) (level : Nat) (ps : List Piece)
    (s : Shape) : Prop :=
  ∀ ts ks Q ks', ts.map Token.kind = pieceTokens ps ++ ks → Stops level ks →
    (∀ d rest, Draft.Draws s d → rest.map Token.kind = ks → Yields (tail d rest) Q ks') →
      Yields (parse ts) Q ks'

/-- Pieces are read as an object or a callee, and what follows is read on from there. -/
def Reached (calls : Bool) (ps : List Piece) (s : Shape) : Prop :=
  ∀ ts ks Q ks', ts.map Token.kind = pieceTokens ps ++ ks →
    (∀ d rest, Draft.Draws s d → rest.map Token.kind = ks →
      Yields (accessTail calls d rest) Q ks') →
        ∃ d rest h, operand ts = .ok ⟨d, rest, h⟩ ∧ Yields (accessTail calls d rest) Q ks'

/-- Pieces begin with no operator that stands in front of an operand. -/
def Prefixless (ps : List Piece) : Prop :=
  ∃ k rest, ps = .token k :: rest ∧ stepOp? k = none ∧ unaryOp? k = none

section Chain

variable {ps : List Piece} {s : Shape}

theorem stops_top (ks : List TokenKind) : Stops 19 ks := by
  intro k _
  cases k with
  | mark m => cases m <;> decide
  | _ => exact Nat.succ_pos 18

theorem closed_operand {level : Nat} (h : Closed primary level ps s) (hp : Prefixless ps)
    (hnew : (pieceTokens ps).head? ≠ some (.keyword .new)) : Closed operand level ps s := by
  intro ts ks hts hstops
  have hyields := h ts ks hts hstops
  obtain ⟨k, qs, rfl, -⟩ := hp
  unfold operand
  split
  · obtain rfl := (List.cons.inj hts).1
    exact absurd rfl hnew
  · exact hyields

theorem reached_of_closed (h : Closed operand 19 ps s) (calls : Bool) : Reached calls ps s := by
  intro ts ks Q ks' hts hnext
  obtain ⟨d, rest, hlt, hd, hdraws, hrest⟩ := h ts ks hts (stops_top ks)
  exact ⟨d, rest, hlt, hd, hnext d rest hdraws hrest⟩

theorem closed_access (h : Reached true ps s) : Closed access 18 ps s := by
  intro ts ks hts hstops
  obtain ⟨d, rest, hlt, hd, hyields⟩ := h ts ks (Draft.Draws s) ks hts fun d rest hd hrest =>
    accessTail_stops true hd hrest hstops
  unfold access
  rw [hd]
  change Yields (accessTail true d rest >>= _) _ _
  exact .bind hyields fun _ _ _ hd hks => .pure hd hks

theorem closed_stepped (h : Closed access 18 ps s) : Closed stepped 16 ps s := by
  intro ts ks hts hstops
  unfold stepped
  refine .bind (h ts ks hts (hstops.mono (by decide))) fun d rest _ hd hrest => ?_
  dsimp only
  rw [take?_none hrest (hstops.stepOp? (Nat.le_refl _))]
  exact .pure hd hrest

theorem closed_unary (h : Closed stepped 16 ps s) (hp : Prefixless ps) : Closed unary 16 ps s := by
  intro ts ks hts hstops
  have hyields := h ts ks hts hstops
  obtain ⟨k, qs, rfl, hstep, hop⟩ := hp
  obtain ⟨span, more, rfl, -⟩ := exists_token hts
  unfold unary
  simp only [hstep, hop]
  exact hyields

theorem entered_operation (h : Closed unary 16 ps s) (level : Nat) :
    Entered (operation level) (operationTail level) 16 ps s := by
  intro ts ks Q ks' hts hstops hnext
  unfold operation
  refine .bind (h ts ks hts hstops) fun d rest _ hd hrest => ?_
  exact .bind (hnext d rest hd hrest) fun _ _ _ hq hks => .pure hq hks

theorem closed_operation {level n m : Nat}
    (h : Entered (operation level) (operationTail level) m ps s) (hnm : n ≤ m)
    (hn : n ≤ level ∨ n ≤ 9) : Closed (operation level) n ps s :=
  fun ts ks hts hstops => h ts ks _ ks hts (hstops.mono hnm) fun _ _ hd hrest =>
    operationTail_stops hd hrest hstops hn

theorem entered_conjunction (h : Closed (operation 0) 7 ps s) :
    Entered conjunction andTail 7 ps s := by
  intro ts ks Q ks' hts hstops hnext
  unfold conjunction
  refine .bind (h ts ks hts hstops) fun d rest _ hd hrest => ?_
  exact .bind (hnext d rest hd hrest) fun _ _ _ hq hks => .pure hq hks

theorem closed_conjunction (h : Entered conjunction andTail 7 ps s) : Closed conjunction 6 ps s :=
  fun ts ks hts hstops => h ts ks _ ks hts (hstops.mono (by decide)) fun _ _ hd hrest =>
    andTail_stops hd hrest hstops

theorem entered_disjunction (h : Closed conjunction 6 ps s) : Entered disjunction orTail 6 ps s := by
  intro ts ks Q ks' hts hstops hnext
  unfold disjunction
  refine .bind (h ts ks hts hstops) fun d rest _ hd hrest => ?_
  exact .bind (hnext d rest hd hrest) fun _ _ _ hq hks => .pure hq hks

theorem closed_disjunction (h : Entered disjunction orTail 6 ps s) : Closed disjunction 5 ps s :=
  fun ts ks hts hstops => h ts ks _ ks hts (hstops.mono (by decide)) fun _ _ hd hrest =>
    orTail_stops hd hrest hstops

/-- A choice ends where no question mark follows, although a target of an assignment does. -/
theorem yields_conditional (h : Closed disjunction 5 ps s) {ts : List Token} {ks : List TokenKind}
    (hts : ts.map Token.kind = pieceTokens ps ++ ks) (hstops : Stops 5 ks)
    (hks : ks.head? ≠ some (.mark .question)) : Yields (conditional ts) (Draft.Draws s) ks := by
  unfold conditional
  refine .bind (h ts ks hts hstops) fun d rest _ hd hrest => ?_
  dsimp only
  rw [eat?_none hrest hks]
  exact .pure hd hrest

theorem closed_conditional (h : Closed disjunction 5 ps s) : Closed conditional 4 ps s :=
  fun _ _ hts hstops => yields_conditional h hts (hstops.mono (by decide)) (hstops.ne (by decide))

theorem closed_assignment (h : Closed conditional 4 ps s) : Closed assignment 4 ps s := by
  intro ts ks hts hstops
  unfold assignment
  refine .bind (h ts ks hts hstops) fun d rest _ hd hrest => ?_
  dsimp only
  rw [take?_none hrest (hstops.assignmentKind? (Nat.le_refl _))]
  exact .pure hd hrest

theorem entered_expression (h : Closed assignment 4 ps s) : Entered expression commaTail 4 ps s := by
  intro ts ks Q ks' hts hstops hnext
  unfold expression
  refine .bind (h ts ks hts hstops) fun d rest _ hd hrest => ?_
  exact .bind (hnext d rest hd hrest) fun _ _ _ hq hks => .pure hq hks

theorem closed_expression (h : Entered expression commaTail 4 ps s) : Closed expression 1 ps s :=
  fun ts ks hts hstops => h ts ks _ ks hts (hstops.mono (by decide)) fun _ _ hd hrest =>
    commaTail_stops hd hrest hstops

end Chain

section Rungs

variable {ps : List Piece} {s : Shape}

/-- Pieces are read as a shape where the grammar asks for an expression that binds at least as
tightly as a level. -/
def Rung : Nat → List Piece → Shape → Prop
  | 0, ps, s | 1, ps, s => Entered expression commaTail 4 ps s
  | 2, ps, s | 3, ps, s => Closed assignment 4 ps s
  | 4, ps, s => Closed conditional 4 ps s
  | 5, ps, s => Entered disjunction orTail 6 ps s
  | 6, ps, s => Entered conjunction andTail 7 ps s
  | 15, ps, s => Closed unary 16 ps s
  | 16, ps, s | 17, ps, s => Closed stepped 16 ps s ∧ Prefixless ps
  | 18, ps, s =>
    Reached true ps s ∧ (s.written.callsThrough = false → Reached false ps s) ∧ Prefixless ps
  | 19, ps, s => Closed operand 19 ps s ∧ Prefixless ps
  | 20, ps, s =>
    Closed primary 19 ps s ∧ Prefixless ps ∧ (pieceTokens ps).head? ≠ some (.keyword .new)
  | n, ps, s => ∀ level ≤ n, Entered (operation level) (operationTail level) (n + 1) ps s

theorem Entered.mono {parse : (ts : List Token) → Parse Draft ts.length}
    {tail : Draft → (ts : List Token) → Parse Draft (ts.length + 1)} {n m : Nat}
    (h : Entered parse tail m ps s) (hnm : n ≤ m) : Entered parse tail n ps s :=
  fun ts ks Q ks' hts hstops => h ts ks Q ks' hts (hstops.mono hnm)

theorem rung_operation {n m : Nat} (hnm : n + 1 ≤ m)
    (h : ∀ level ≤ n, Entered (operation level) (operationTail level) m ps s) :
    ∀ level ≤ n, Entered (operation level) (operationTail level) (n + 1) ps s :=
  fun level hl => (h level hl).mono hnm

/-- What binds tightly can stand where something looser can. -/
theorem Rung.pred {n : Nat} (hn : n < 20) (h : Rung (n + 1) ps s) : Rung n ps s := by
  match n, hn, h with
  | 0, _, h | 2, _, h | 16, _, h => exact h
  | 1, _, h => exact entered_expression h
  | 3, _, h => exact closed_assignment h
  | 4, _, h => exact closed_conditional (closed_disjunction h)
  | 5, _, h => exact entered_disjunction (closed_conjunction h)
  | 6, _, h =>
    have h0 : Entered (operation 0) (operationTail 0) 8 ps s := h 0 (Nat.zero_le _)
    exact entered_conjunction (closed_operation h0 (by decide) (.inr (by decide)))
  | 7, _, h => exact rung_operation (by decide) fun level hl => h level (Nat.le_succ_of_le hl)
  | 8, _, h => exact rung_operation (by decide) fun level hl => h level (Nat.le_succ_of_le hl)
  | 9, _, h => exact rung_operation (by decide) fun level hl => h level (Nat.le_succ_of_le hl)
  | 10, _, h => exact rung_operation (by decide) fun level hl => h level (Nat.le_succ_of_le hl)
  | 11, _, h => exact rung_operation (by decide) fun level hl => h level (Nat.le_succ_of_le hl)
  | 12, _, h => exact rung_operation (by decide) fun level hl => h level (Nat.le_succ_of_le hl)
  | 13, _, h => exact rung_operation (by decide) fun level hl => h level (Nat.le_succ_of_le hl)
  | 14, _, h => exact rung_operation (by decide) fun level _ => entered_operation h level
  | 15, _, h => exact closed_unary h.1 h.2
  | 17, _, h => exact ⟨closed_stepped (closed_access h.1), h.2.2⟩
  | 18, _, h => exact ⟨reached_of_closed h.1 true, fun _ => reached_of_closed h.1 false, h.2⟩
  | 19, _, h => exact ⟨closed_operand h.1 h.2.1 h.2.2, h.2.1⟩
  | n + 20, hn, _ => omega

theorem Rung.down {n m : Nat} (h : Rung m ps s) (hm : m ≤ 20) (hnm : n ≤ m) : Rung n ps s := by
  induction hnm with
  | refl => exact h
  | step hnm ih => exact ih (h.pred hm) (Nat.le_of_succ_le hm)

/-- What is in parentheses can stand anywhere. -/
theorem rung_parenthesized (h : Rung 1 ps s) :
    Rung 20 (.mark .openParen :: ps ++ [.mark .closeParen]) s := by
  refine ⟨?_, ⟨_, _, rfl, rfl, rfl⟩, by simp [Piece.mark]⟩
  intro ts ks hts hstops
  obtain ⟨span, more, rfl, hmore⟩ := exists_token hts
  unfold primary
  simp only [List.append_eq, pieceTokens_append, List.append_assoc] at hmore
  refine .bind (closed_expression h more _ hmore (.cons (by decide) _)) fun d rest _ hd hrest => ?_
  exact .bind (expect_yields hrest) fun _ _ _ _ hks => .pure hd hks

/-- An expression is read as itself where nothing is put in parentheses. -/
def Shape.Climbs (s : Shape) : Prop := Rung (s.kind.level?.getD primaryLevel) s.written.pieces s

theorem level_bounds (kind : Kind) :
    1 ≤ kind.level?.getD primaryLevel ∧ kind.level?.getD primaryLevel ≤ 20 := by
  cases kind with
  | binary op => cases op <;> exact ⟨by decide, by decide⟩
  | increment isDecrement isPostfix =>
    cases isPostfix <;> exact ⟨Nat.le_of_ble_eq_true rfl, Nat.le_of_ble_eq_true rfl⟩
  | _ => exact ⟨Nat.le_of_ble_eq_true rfl, Nat.le_of_ble_eq_true rfl⟩

/-- An expression is read as itself wherever it is written. -/
theorem Shape.Climbs.slot {s : Shape} (h : s.Climbs) (level : Nat) (hl : level ≤ 20) :
    Rung level (s.written.expression level) s := by
  obtain ⟨hlow, hhigh⟩ := level_bounds s.kind
  unfold Written.expression
  rw [Shape.kind_written]
  split
  · exact (rung_parenthesized (h.down hhigh hlow)).down (Nat.le_refl _) hl
  · rename_i hlevel
    exact h.down hhigh (Nat.not_lt.mp hlevel)

end Rungs

end Hoist
