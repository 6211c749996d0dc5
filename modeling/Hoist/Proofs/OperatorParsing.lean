import Hoist.Proofs.ExpressionParsing

namespace Hoist

theorem binaryOp?_mark (op : BinaryOp) : binaryOp? (.mark op.mark) = some op := by
  cases op <;> rfl

theorem tightness_mark (op : BinaryOp) : (TokenKind.mark op.mark).tightness = op.precedence :=
  tightness_of_binaryOp? (binaryOp?_mark op)

theorem precedence_bounds (op : BinaryOp) : 9 ≤ op.precedence ∧ op.precedence ≤ 13 := by
  cases op <;> exact ⟨by decide, by decide⟩

/-- An assignment is written as its target and its value with one token between them. -/
theorem tokens_assignment {kind : Kind} (hk : kind.isAssignment = true)
    (hl : kind.isLegible = true) (target value : Written) :
    ∃ k, assignmentKind? k = some kind ∧ pieceTokens (layout kind [target, value]) =
      pieceTokens (target.expression stepLevel) ++ k ::
        pieceTokens (value.expression assignLevel) := by
  cases kind with
  | assign => exact ⟨.mark .assign, rfl, by simp [layout, expressionAt, Piece.mark]⟩
  | assignOp op =>
    cases op with
    | add => exact ⟨.mark .addAssign, rfl, by
        simp [layout, expressionAt, Piece.mark, BinaryOp.assignPieces]⟩
    | subtract => exact ⟨.mark .subtractAssign, rfl, by
        simp [layout, expressionAt, Piece.mark, BinaryOp.assignPieces]⟩
    | multiply => exact ⟨.mark .multiplyAssign, rfl, by
        simp [layout, expressionAt, Piece.mark, BinaryOp.assignPieces]⟩
    | divide => exact ⟨.mark .divideAssign, rfl, by
        simp [layout, expressionAt, Piece.mark, BinaryOp.assignPieces]⟩
    | modulus => exact ⟨.mark .modulusAssign, rfl, by
        simp [layout, expressionAt, Piece.mark, BinaryOp.assignPieces]⟩
    | _ => cases hl
  | _ => cases hk

/-- An operator in front of an operand is one token. -/
theorem tokens_unary (op : UnaryOp) (ps : List Piece) : ∃ k, stepOp? k = none ∧
    unaryOp? k = some op ∧ pieceTokens (unaryPieces op ps) = k :: pieceTokens ps := by
  cases op with
  | negate =>
    refine ⟨.mark .subtract, rfl, rfl, ?_⟩
    rw [unaryPieces]
    split <;> rfl
  | plus =>
    refine ⟨.mark .add, rfl, rfl, ?_⟩
    rw [unaryPieces]
    split <;> rfl
  | not_ => exact ⟨.mark .not_, rfl, rfl, rfl⟩
  | typeof => exact ⟨.keyword .typeof, rfl, rfl, rfl⟩
  | void => exact ⟨.keyword .void, rfl, rfl, rfl⟩
  | delete => exact ⟨.keyword .delete, rfl, rfl, rfl⟩

/-- A draft of a shape is of its kind. -/
theorem Draft.Draws.kind {s : Shape} {d : Draft} (h : Draft.Draws s d) : d.kind = s.kind := by
  have hk := Draft.kind_of_shapes h
  obtain ⟨kind, constant, ss⟩ := s
  rw [← hk, Shape.marked]
  rfl

section Steps

variable {left : Draft} {span : Span} {more : List Token} {right : Draft} {rest : List Token}
  {h : rest.length < more.length} {Q : Draft → Prop} {ks : List TokenKind}

theorem commaTail_step (hr : assignment more = .ok ⟨right, rest, h⟩)
    (hnext : Yields (commaTail (.spanning .comma left right [left, right]) rest) Q ks) :
    Yields (commaTail left (⟨.mark .comma, span⟩ :: more)) Q ks := by
  rw [commaTail, hr]
  change Yields (commaTail _ rest >>= _) Q ks
  exact .bind hnext fun _ _ _ hq hks => .pure hq hks

theorem orTail_step (hr : conjunction more = .ok ⟨right, rest, h⟩)
    (hnext : Yields (orTail (.spanning .or_ left right [left, right]) rest) Q ks) :
    Yields (orTail left (⟨.mark .or_, span⟩ :: more)) Q ks := by
  rw [orTail, hr]
  change Yields (orTail _ rest >>= _) Q ks
  exact .bind hnext fun _ _ _ hq hks => .pure hq hks

theorem andTail_step (hr : operation 0 more = .ok ⟨right, rest, h⟩)
    (hnext : Yields (andTail (.spanning .and_ left right [left, right]) rest) Q ks) :
    Yields (andTail left (⟨.mark .and_, span⟩ :: more)) Q ks := by
  rw [andTail, hr]
  change Yields (andTail _ rest >>= _) Q ks
  exact .bind hnext fun _ _ _ hq hks => .pure hq hks

theorem operationTail_step {op : BinaryOp} {level : Nat} (hl : level ≤ op.precedence)
    (hr : operation (op.precedence + 1) more = .ok ⟨right, rest, h⟩)
    (hnext : Yields (operationTail level (.spanning (.binary op) left right [left, right]) rest)
      Q ks) :
    Yields (operationTail level left (⟨.mark op.mark, span⟩ :: more)) Q ks := by
  rw [operationTail]
  simp only [binaryOp?_mark]
  rw [if_neg (Nat.not_lt.mpr hl), hr]
  change Yields (operationTail level _ rest >>= _) Q ks
  exact .bind hnext fun _ _ _ hq hks => .pure hq hks

end Steps

/-- Operands with an operator between them that groups to the left: what is read on behind the first
one takes in the second. -/
theorem Entered.grouped {parse right : (ts : List Token) → Parse Draft ts.length}
    {tail : Draft → (ts : List Token) → Parse Draft (ts.length + 1)} {n : Nat}
    {ps qs whole : List Piece} {a b : Shape} {k : TokenKind} {kind : Kind} {constant : Bool}
    (ha : Entered parse tail n ps a) (hb : Closed right n qs b) (hk : k.tightness < n)
    (hw : pieceTokens whole = pieceTokens ps ++ k :: pieceTokens qs)
    (htail : ∀ {l r : Draft} {span : Span} {more rest : List Token} {h Q ks},
      right more = .ok ⟨r, rest, h⟩ → Yields (tail (.spanning kind l r [l, r]) rest) Q ks →
        Yields (tail l (⟨k, span⟩ :: more)) Q ks) :
    Entered parse tail n whole (.node kind constant [a, b]) := by
  intro ts ks Q ks' hts hstops hnext
  rw [hw, List.append_assoc] at hts
  refine ha ts _ Q ks' hts (.cons hk _) fun l rest hl hrest => ?_
  obtain ⟨span, more, rfl, hmore⟩ := exists_token hrest
  obtain ⟨r, rest', hlt, hr, hdraws, hrest'⟩ := hb more ks hmore hstops
  exact htail hr (hnext _ rest' (draws_two hl hdraws) hrest')

/-- The rung of a binary operator. -/
theorem rung_precedence {ps : List Piece} {s : Shape} (op : BinaryOp) :
    Rung op.precedence ps s ↔ ∀ level ≤ op.precedence,
      Entered (operation level) (operationTail level) (op.precedence + 1) ps s := by
  cases op <;> rfl

/-- The rung of the right operand of a binary operator. -/
theorem closed_right {ps : List Piece} {s : Shape} (op : BinaryOp)
    (h : Rung (op.precedence + 1) ps s) :
    Closed (operation (op.precedence + 1)) (op.precedence + 1) ps s := by
  have hentered : Entered (operation (op.precedence + 1)) (operationTail (op.precedence + 1))
      (op.precedence + 2) ps s := by
    cases op <;> exact h _ (Nat.le_refl _)
  exact closed_operation hentered (Nat.le_succ _) (.inl (Nat.le_refl _))

namespace Shape

variable {constant : Bool} {a b c : Shape}

theorem climbs_comma (ha : a.Climbs) (hb : b.Climbs) : (node .comma constant [a, b]).Climbs := by
  have hleft : Entered expression commaTail 4 (a.written.expression commaLevel) a :=
    ha.slot 1 (by decide)
  have hright : Closed assignment 4 (b.written.expression (commaLevel + 1)) b :=
    hb.slot 2 (by decide)
  refine climbs_of rfl (hleft.grouped hright (k := .mark .comma) (by decide) ?_ commaTail_step)
  simp [layout, expressionAt, Piece.comma, Piece.mark]

theorem climbs_or (ha : a.Climbs) (hb : b.Climbs) : (node .or_ constant [a, b]).Climbs := by
  have hleft : Entered disjunction orTail 6 (a.written.expression orLevel) a :=
    ha.slot 5 (by decide)
  have hright : Closed conjunction 6 (b.written.expression andLevel) b :=
    closed_conjunction (hb.slot 6 (by decide))
  refine climbs_of rfl (hleft.grouped hright (k := .mark .or_) (by decide) ?_ orTail_step)
  simp [layout, expressionAt, Piece.mark]

theorem climbs_and (ha : a.Climbs) (hb : b.Climbs) : (node .and_ constant [a, b]).Climbs := by
  have hleft : Entered conjunction andTail 7 (a.written.expression andLevel) a :=
    ha.slot 6 (by decide)
  have hrung : Rung 7 (b.written.expression (andLevel + 1)) b := hb.slot 7 (by decide)
  have hright : Closed (operation 0) 7 (b.written.expression (andLevel + 1)) b :=
    closed_operation (hrung 0 (Nat.zero_le _)) (by decide) (.inr (by decide))
  refine climbs_of rfl (hleft.grouped hright (k := .mark .and_) (by decide) ?_ andTail_step)
  simp [layout, expressionAt, Piece.mark]

theorem climbs_binary {op : BinaryOp} (ha : a.Climbs) (hb : b.Climbs) :
    (node (.binary op) constant [a, b]).Climbs := by
  have hbounds := precedence_bounds op
  refine climbs_of rfl ((rung_precedence op).mpr fun level hl => ?_)
  have hleft := (rung_precedence op).mp (ha.slot op.precedence (by omega)) level hl
  have hright := closed_right op (hb.slot (op.precedence + 1) (by omega))
  have htight := tightness_mark op
  refine hleft.grouped hright (k := .mark op.mark) (by omega) ?_ (operationTail_step hl)
  simp [layout, expressionAt, Piece.mark]

theorem climbs_conditional (ha : a.Climbs) (hb : b.Climbs) (hc : c.Climbs) :
    (node .conditional constant [a, b, c]).Climbs := by
  refine climbs_of rfl fun ts ks hts hstops => ?_
  have hcondition : Closed disjunction 5 (a.written.expression orLevel) a :=
    closed_disjunction (ha.slot 5 (by decide))
  have hfirst : Closed assignment 4 (b.written.expression assignLevel) b := hb.slot 3 (by decide)
  have hsecond : Closed assignment 4 (c.written.expression assignLevel) c := hc.slot 3 (by decide)
  have hparts : ts.map Token.kind = pieceTokens (a.written.expression orLevel) ++
      .mark .question :: (pieceTokens (b.written.expression assignLevel) ++
        .mark .colon :: (pieceTokens (c.written.expression assignLevel) ++ ks)) := by
    simpa [layout, expressionAt, Piece.mark] using hts
  unfold conditional
  refine .bind (hcondition ts _ hparts (.cons (by decide) _)) fun d rest _ hd hrest => ?_
  dsimp only
  obtain ⟨span, more, hlt, heat, hmore⟩ := eat?_some hrest
  rw [heat]
  refine .bind (hfirst more _ hmore (.cons (by decide) _)) fun e rest₁ _ he hrest₁ => ?_
  refine .bind (expect_yields hrest₁) fun _ rest₂ _ _ hrest₂ => ?_
  exact .bind (hsecond rest₂ ks hrest₂ hstops) fun f rest₃ _ hf hrest₃ =>
    .pure (draws_three hd he hf) hrest₃

theorem climbs_assignment {kind : Kind} (hk : kind.isAssignment = true)
    (hl : kind.isLegible = true) (ht : a.kind.isTarget = true) (ha : a.Climbs) (hb : b.Climbs) :
    (node kind constant [a, b]).Climbs := by
  obtain ⟨k, hkind, htokens⟩ := tokens_assignment hk hl a.written b.written
  have hlevel : kind.level? = some assignLevel := by
    cases kind <;> first | rfl | cases hk
  refine climbs_of hlevel fun ts ks hts hstops => ?_
  have hrung : Rung 16 (a.written.expression stepLevel) a := ha.slot 16 (by decide)
  have htarget : Closed disjunction 5 (a.written.expression stepLevel) a :=
    closed_disjunction (hrung.down (n := 5) (by decide) (by decide))
  have hvalue : Closed assignment 4 (b.written.expression assignLevel) b := hb.slot 3 (by decide)
  have htight := tightness_of_assignmentKind? hkind
  rw [List.map_cons, List.map_cons, List.map_nil, htokens, List.append_assoc] at hts
  have hquestion : (k :: (pieceTokens (b.written.expression assignLevel) ++ ks)).head? ≠
      some (.mark .question) := by
    rintro he
    obtain rfl := Option.some.inj he
    cases hkind
  unfold assignment
  refine .bind (yields_conditional htarget hts (.cons (by omega) _) hquestion)
    fun d rest _ hd hrest => ?_
  dsimp only
  obtain ⟨span, more, hlt, htake, hmore⟩ := take?_some hrest hkind
  rw [htake]
  dsimp only
  rw [checkTarget, if_pos (hd.kind ▸ ht)]
  exact .bind (hvalue more ks hmore hstops) fun v rest' _ hv hrest' =>
    .pure (draws_two hd hv) hrest'

theorem climbs_unary {op : UnaryOp} (ha : a.Climbs) : (node (.unary op) constant [a]).Climbs := by
  refine climbs_of rfl fun ts ks hts hstops => ?_
  have hoperand : Closed unary 16 (a.written.expression unaryLevel) a := ha.slot 15 (by decide)
  obtain ⟨k, hstep, hop, htokens⟩ := tokens_unary op (a.written.expression unaryLevel)
  have hparts : ts.map Token.kind = k :: (pieceTokens (a.written.expression unaryLevel) ++ ks) :=
    hts.trans (congrArg (· ++ ks) htokens)
  obtain ⟨span, more, rfl, hmore⟩ := exists_token hparts
  unfold unary
  simp only [hstep, hop]
  exact .bind (hoperand more ks hmore hstops) fun d rest _ hd hrest => .pure (draws_one hd) hrest

/-- A target is never put in parentheses. -/
theorem expression_target (ht : a.kind.isTarget = true) {level : Nat} (hl : level ≤ callLevel) :
    a.written.expression level = a.written.pieces := by
  have hlevel : callLevel ≤ a.kind.level?.getD primaryLevel := Kind.le_level_of_isTarget ht
  rw [Written.expression, if_neg]
  rw [kind_written]
  omega

theorem climbs_increment {isDecrement isPostfix : Bool} (ht : a.kind.isTarget = true)
    (ha : a.Climbs) : (node (.increment isDecrement isPostfix) constant [a]).Climbs := by
  obtain ⟨k, hstep, htokens⟩ : ∃ k, stepOp? k = some isDecrement ∧
      Piece.mark (if isDecrement then .decrement else .increment) = .token k := by
    cases isDecrement <;> exact ⟨_, rfl, rfl⟩
  have hrung : Rung 16 (a.written.expression stepLevel) a := ha.slot 16 (by decide)
  cases isPostfix with
  | false =>
    refine climbs_of rfl fun ts ks hts hstops => ?_
    have htarget : Closed unary 16 (a.written.expression stepLevel) a :=
      hrung.down (n := 15) (by decide) (by decide)
    have hparts : ts.map Token.kind = k :: (pieceTokens (a.written.expression stepLevel) ++ ks) := by
      simpa [layout, expressionAt, htokens] using hts
    obtain ⟨span, more, rfl, hmore⟩ := exists_token hparts
    unfold unary
    simp only [hstep]
    refine .bind (htarget more ks hmore hstops) fun d rest _ hd hrest => ?_
    rw [checkTarget, if_pos (hd.kind ▸ ht)]
    exact .pure (draws_one hd) hrest
  | true =>
    have hpieces : layout (.increment isDecrement true) ([a].map written) =
        a.written.expression stepLevel ++ [.token k] := by
      simp [layout, expressionAt, htokens]
    refine climbs_of rfl ⟨fun ts ks hts hstops => ?_, ?_⟩
    · have htarget : Closed access 18 (a.written.expression stepLevel) a := by
        rw [expression_target ht (by decide), ← expression_target ht (Nat.le_refl callLevel)]
        exact closed_access (ha.reached (.inl rfl))
      rw [hpieces, pieceTokens_append, List.append_assoc] at hts
      have htight := tightness_of_stepOp? hstep
      unfold stepped
      refine .bind (htarget ts _ hts (.cons (by omega) _)) fun d rest _ hd hrest => ?_
      dsimp only
      obtain ⟨span, more, hlt, htake, hmore⟩ := take?_some hrest hstep
      rw [htake]
      dsimp only
      rw [checkTarget, if_pos (hd.kind ▸ ht)]
      exact .pure (draws_one hd) hmore
    · rw [hpieces]
      exact hrung.2.append _

end Shape

end Hoist
