import Hoist.Proofs.StatementParsing

namespace Hoist

/-- What follows a `break` or a `continue` is read as its label. -/
theorem tokens_jump (keyword : Keyword) (label : Option String) :
    pieceTokens (jumpPieces keyword label) = .keyword keyword ::
      ((label.map TokenKind.symbol).toList ++ [.mark .semicolon]) := by
  cases label <;> rfl

namespace Shape

variable {constant : Bool} {s e first second body : Shape} {ss : List Shape} {ts : List Token}
  {ks : List TokenKind}

/-- A node that is no declaration stands where exactly one statement does. -/
theorem stays_of_draws {d : Draft} (h : Draft.Draws s d) (hs : s.kind ≠ .var) :
    Draft.Stays s d := by
  refine ⟨h, fun start => ?_⟩
  cases d with
  | node => rfl
  | declarations => exact absurd h.kind.symm hs

theorem stands_block (h : (node .block constant ss).Blocks) :
    (node .block constant ss).Stands := by
  intro ts ks hts _
  have hyields := h ts ks hts
  rw [tokens_block] at hts
  obtain ⟨span, more, rfl, -⟩ := exists_token hts
  unfold statement
  exact hyields.imp fun d hd => stays_of_draws hd (by simp)

/-- An expression that looks like no other statement is read as a statement. -/
theorem statement_of_expression {k : TokenKind} {rest : List TokenKind}
    (hts : ts.map Token.kind = k :: rest) (hk : k.opensOperand = true)
    (hbrace : k ≠ .mark .openBrace) (hfunction : k ≠ .keyword .function)
    (hlabel : ∀ x, k = .symbol x → rest.head? ≠ some (.mark .colon))
    (he : Yields (expression ts) (Draft.Draws e) (.mark .semicolon :: ks)) :
    Yields (statement ts) (Draft.Stays (node .expression constant [e])) ks := by
  unfold statement
  split
  case h_16 =>
    refine .bind he fun d rest₁ _ hd hrest₁ => ?_
    exact .bind (statementEnd_yields hrest₁) fun _ _ _ _ hks =>
      .pure (stays_node (draws_one hd)) hks
  case h_1 => exact absurd (List.cons.inj hts).1.symm hbrace
  case h_12 => exact absurd (List.cons.inj hts).1.symm hfunction
  case h_14 | h_15 =>
    obtain ⟨rfl, hrest⟩ := List.cons.inj hts
    exact absurd (by rw [← hrest]; rfl) (hlabel _ rfl)
  case h_17 => cases hts
  all_goals
    obtain rfl := (List.cons.inj hts).1
    cases hk

theorem stands_expression (ho : Opens e.written.pieces) (he : e.Climbs) :
    (node .expression constant [e]).Stands := by
  intro ts ks hts _
  obtain ⟨ps, hopens, htokens, hbrace, hfunction, hps⟩ := tokens_expression constant ho
  have hinner : Rung 1 (e.written.expression commaLevel) e := he.slot 1 (by decide)
  have hrung : Rung 1 ps e := by
    rcases hps with rfl | rfl
    · exact hinner
    · exact (rung_parenthesized hinner).down (by decide) (by decide)
  rw [htokens, List.append_assoc] at hts
  have hyields := closed_expression hrung ts _ hts (.cons (by decide) _)
  obtain ⟨k, rest, rfl, hk, hlabel⟩ := hopens
  refine statement_of_expression hts hk (fun h => hbrace (congrArg some h))
    (fun h => hfunction (congrArg some h)) (fun x hx => ?_) hyields
  have hrest := hlabel x hx
  cases hr : pieceTokens rest with
  | nil => simp
  | cons l ls =>
    rw [hr] at hrest
    exact hrest

theorem stands_var (hs : s.Proper .declarator) (ih : ∀ d ∈ s.children, d.Readable) :
    (node .var constant [s]).Stands := by
  intro ts ks hts _
  rw [statement_written rfl (by simp)] at hts
  have hparts : ts.map Token.kind = pieceTokens (declarationPieces ([s].map written)) ++
      .mark .semicolon :: ks := by
    simpa [layout, Piece.mark] using hts
  obtain ⟨span, more, rfl, hmore⟩ := exists_token hparts
  have hdeclarators : Yields (declarators more) _ _ :=
    declarators_yields (List.cons_ne_nil s []) (List.forall_mem_singleton.mpr hs)
      (List.forall_mem_singleton.mpr ih) hparts (.cons (by decide) _)
  unfold statement
  refine .bind hdeclarators fun ds rest₁ _ hds hrest₁ => ?_
  refine .bind (statementEnd_yields hrest₁) fun _ _ _ _ hks => .pure ?_ hks
  cases hds with
  | cons hd hnil =>
    cases hnil
    refine ⟨?_, fun _ => rfl⟩
    rw [Draft.Draws, Draft.shapes, Draft.allShapes, hd, marked]
    rfl

theorem stands_if (hc : e.Climbs) (hf : first.Proper .block) (hb : first.Blocks) :
    (node .if_ constant [e, first]).Stands := by
  intro ts ks hts helse
  rw [statement_written rfl (by simp)] at hts
  have hparts : ts.map Token.kind = .keyword .if_ ::
      (pieceTokens (parenthesized (e.written.expression commaLevel)) ++
        (pieceTokens first.written.statement ++ ks)) := by
    simpa [layout, expressionAt, statementAt, Piece.keyword] using hts
  obtain ⟨span, more, rfl, hmore⟩ := exists_token hparts
  unfold statement
  refine .bind (header_yields hc hmore) fun c rest₁ _ hd hrest₁ => ?_
  refine .bind (body_yields hf hb hrest₁) fun b rest₂ _ hd' hrest₂ => ?_
  dsimp only
  rw [eat?_none hrest₂ helse]
  exact .pure (stays_node (draws_two hd hd')) hrest₂

theorem stands_ifElse (hc : e.Climbs) (hf : first.Proper .block) (hb : first.Blocks)
    (hs : second.Proper .block) (hb' : second.Blocks) :
    (node .if_ constant [e, first, second]).Stands := by
  intro ts ks hts _
  rw [statement_written rfl (by simp)] at hts
  have hparts : ts.map Token.kind = .keyword .if_ ::
      (pieceTokens (parenthesized (e.written.expression commaLevel)) ++
        (pieceTokens first.written.statement ++ .keyword .else_ ::
          (pieceTokens second.written.statement ++ ks))) := by
    simpa [layout, expressionAt, statementAt, Piece.keyword] using hts
  obtain ⟨span, more, rfl, hmore⟩ := exists_token hparts
  unfold statement
  refine .bind (header_yields hc hmore) fun c rest₁ _ hd hrest₁ => ?_
  refine .bind (body_yields hf hb hrest₁) fun b rest₂ _ hd' hrest₂ => ?_
  dsimp only
  obtain ⟨span', more', hlt, heat, hmore'⟩ := eat?_some hrest₂
  rw [heat]
  refine .bind (body_yields hs hb' hmore') fun b' rest₃ _ hd'' hrest₃ => ?_
  exact .pure (stays_node (draws_node (drawsAll_cons hd (drawsAll_cons hd'
    (drawsAll_cons hd'' drawsAll_nil))))) hrest₃

theorem stands_return : (node .return_ constant []).Stands := by
  intro ts ks hts _
  rw [statement_written rfl (by simp)] at hts
  have hparts : ts.map Token.kind = .keyword .return_ :: .mark .semicolon :: ks := hts
  obtain ⟨span, more, rfl, hmore⟩ := exists_token hparts
  have hends : endsStatement more = true := by
    obtain ⟨span', more', rfl, -⟩ := exists_token hmore
    rfl
  unfold statement
  simp only [hends, if_true]
  exact .bind (statementEnd_yields hmore) fun _ _ _ _ hks =>
    .pure (stays_node (draws_node drawsAll_nil)) hks

theorem stands_returnValue (ho : Opens e.written.pieces) (he : e.Climbs) :
    (node .return_ constant [e]).Stands := by
  intro ts ks hts _
  rw [statement_written rfl (by simp)] at hts
  have hparts : ts.map Token.kind = .keyword .return_ ::
      (pieceTokens (e.written.expression commaLevel) ++ .mark .semicolon :: ks) := by
    simpa [layout, expressionAt, Piece.keyword, Piece.mark] using hts
  obtain ⟨span, more, rfl, hmore⟩ := exists_token hparts
  have hends : endsStatement more = false := by
    obtain ⟨k, rest, hk, hopens, -⟩ := opens_expression ho commaLevel
    rw [hk] at hmore
    obtain ⟨span', more', rfl, -⟩ := exists_token hmore
    cases k with
    | mark m => cases m <;> first | rfl | cases hopens
    | _ => rfl
  unfold statement
  simp only [hends, Bool.false_eq_true, if_false]
  refine .bind (he.expression more _ hmore (.cons (by decide) _)) fun v rest₁ _ hv hrest₁ => ?_
  exact .bind (statementEnd_yields hrest₁) fun _ _ _ _ hks =>
    .pure (stays_node (draws_node (drawsAll_cons hv drawsAll_nil))) hks

theorem stands_throw (he : e.Climbs) : (node .throw constant [e]).Stands := by
  intro ts ks hts _
  rw [statement_written rfl (by simp)] at hts
  have hparts : ts.map Token.kind = .keyword .throw ::
      (pieceTokens (e.written.expression commaLevel) ++ .mark .semicolon :: ks) := by
    simpa [layout, expressionAt, Piece.keyword, Piece.mark] using hts
  obtain ⟨span, more, rfl, hmore⟩ := exists_token hparts
  unfold statement
  refine .bind (he.expression more _ hmore (.cons (by decide) _)) fun v rest₁ _ hv hrest₁ => ?_
  exact .bind (statementEnd_yields hrest₁) fun _ _ _ _ hks => .pure (stays_node (draws_one hv)) hks

theorem stands_switch (he : e.Climbs) (hss : ∀ s ∈ ss, s.Proper .clause)
    (ih : ∀ s ∈ ss, ∀ d ∈ s.inside, d.Readable) : (node .switch constant (e :: ss)).Stands := by
  intro ts ks hts _
  rw [statement_written rfl (by simp)] at hts
  have hparts : ts.map Token.kind = .keyword .switch ::
      (pieceTokens (parenthesized (e.written.expression commaLevel)) ++ .mark .openBrace ::
        (statementTokens ss ++ .mark .closeBrace :: ks)) := by
    simpa [layout, expressionAt, Piece.keyword, Piece.mark, tokens_spacedStatements] using hts
  obtain ⟨span, more, rfl, hmore⟩ := exists_token hparts
  unfold statement
  refine .bind (header_yields he hmore) fun v rest₁ _ hv hrest₁ => ?_
  refine .bind (expect_yields hrest₁) fun _ rest₂ _ _ hrest₂ => ?_
  exact .bind (clauses_yields hss ih hrest₂) fun ds rest₃ _ hds hrest₃ =>
    .pure (stays_node (draws_node (drawsAll_cons hv hds))) hrest₃

theorem stands_label {x : String} (h : s.Proper .statement) (hs : s.Stands) :
    (node (.label x) constant [s]).Stands := by
  intro ts ks hts helse
  rw [statement_written rfl (by simp)] at hts
  have hparts : ts.map Token.kind = .symbol x :: .mark .colon ::
      (pieceTokens s.written.statement ++ ks) := by
    simpa [layout, statementAt, Piece.symbol, Piece.mark] using hts
  obtain ⟨span, more, rfl, hmore⟩ := exists_token hparts
  obtain ⟨span', more', rfl, hmore'⟩ := exists_token hmore
  have hyields := hs more' ks hmore' helse
  obtain ⟨k, rest, hk, -⟩ := h.opensStatement
  rw [hk] at hmore'
  obtain ⟨span'', more'', rfl, -⟩ := exists_token hmore'
  unfold statement
  refine .bind hyields fun d rest₁ _ hd hrest₁ => .pure (stays_node ?_) hrest₁
  rw [hd.single]
  exact draws_one hd.draws

theorem stands_while (hc : e.Climbs) (h : body.Proper .block) (hb : body.Blocks) :
    (node .while_ constant [e, body]).Stands := by
  intro ts ks hts _
  rw [statement_written rfl (by simp)] at hts
  have hparts : ts.map Token.kind = .keyword .while_ ::
      (pieceTokens (parenthesized (e.written.expression commaLevel)) ++
        (pieceTokens body.written.statement ++ ks)) := by
    simpa [layout, expressionAt, statementAt, Piece.keyword] using hts
  obtain ⟨span, more, rfl, hmore⟩ := exists_token hparts
  unfold statement
  refine .bind (header_yields hc hmore) fun c rest₁ _ hd hrest₁ => ?_
  exact .bind (body_yields h hb hrest₁) fun b rest₂ _ hd' hrest₂ =>
    .pure (stays_node (draws_two hd hd')) hrest₂

theorem stands_doWhile (h : body.Proper .block) (hb : body.Blocks) (hc : e.Climbs) :
    (node .doWhile constant [body, e]).Stands := by
  intro ts ks hts _
  rw [statement_written rfl (by simp)] at hts
  have hparts : ts.map Token.kind = .keyword .do_ :: (pieceTokens body.written.statement ++
      .keyword .while_ :: (pieceTokens (parenthesized (e.written.expression commaLevel)) ++
        .mark .semicolon :: ks)) := by
    simpa [layout, expressionAt, statementAt, Piece.keyword, Piece.mark] using hts
  obtain ⟨span, more, rfl, hmore⟩ := exists_token hparts
  unfold statement
  refine .bind (body_yields h hb hmore) fun b rest₁ _ hd hrest₁ => ?_
  refine .bind (expect_yields hrest₁) fun _ rest₂ _ _ hrest₂ => ?_
  refine .bind (header_yields hc hrest₂) fun c rest₃ _ hd' hrest₃ => ?_
  exact .bind (statementEnd_yields hrest₃) fun _ _ _ _ hks =>
    .pure (stays_node (draws_two hd hd')) hks

theorem stands_for {condition update : Shape} (hf : first.Proper .initial)
    (ih : ∀ d ∈ first :: first.inside, d.Readable) (hc : condition.Proper .optional)
    (ihc : condition.Readable) (hu : update.Proper .optional) (ihu : update.Readable)
    (h : body.Proper .block) (hb : body.Blocks) :
    (node .for_ constant [first, condition, update, body]).Stands := by
  intro ts ks hts _
  rw [statement_written rfl (by simp), List.map_cons, List.map_cons, List.map_cons, List.map_cons,
    List.map_nil, layout_for] at hts
  have hparts : ts.map Token.kind = .keyword .for_ :: .mark .openParen ::
      (pieceTokens (initialPieces first.written) ++ .mark .semicolon ::
        (pieceTokens (condition.written.expression commaLevel) ++ .mark .semicolon ::
          (pieceTokens (update.written.expression commaLevel) ++ .mark .closeParen ::
            (pieceTokens body.written.statement ++ ks)))) := by
    simpa [Piece.keyword, Piece.mark] using hts
  obtain ⟨span, more, rfl, hmore⟩ := exists_token hparts
  unfold statement
  refine .bind (expect_yields hmore) fun _ rest₁ _ _ hrest₁ => ?_
  refine .bind (initializer_yields hf ih hrest₁) fun i rest₂ _ hi hrest₂ => ?_
  refine .bind (optional_yields hc ihc rfl rfl hrest₂) fun c rest₃ _ hd hrest₃ => ?_
  refine .bind (optional_yields hu ihu rfl rfl hrest₃) fun u rest₄ _ hd' hrest₄ => ?_
  refine .bind (body_yields h hb hrest₄) fun b rest₅ _ hd'' hrest₅ => ?_
  exact .pure (stays_node (draws_node (drawsAll_cons hi (drawsAll_cons hd (drawsAll_cons hd'
    (drawsAll_cons hd'' drawsAll_nil)))))) hrest₅

theorem stands_jump {kind : Kind} {keyword : Keyword} {label : Option String}
    (hk : kind.jump? = some (keyword, label)) : (node kind constant []).Stands := by
  intro ts ks hts _
  cases kind with
  | break_ x | continue_ x =>
    obtain ⟨rfl, rfl⟩ := Prod.mk.inj (Option.some.inj hk)
    rw [statement_written rfl (by simp), layout, tokens_jump] at hts
    obtain ⟨span, more, rfl, hmore⟩ := exists_token hts
    have hmore : more.map Token.kind =
        (x.map TokenKind.symbol).toList ++ .mark .semicolon :: ks := by
      rw [hmore]
      simp
    unfold statement
    refine .bind (optionalName_yields hmore (by simp)) fun y rest₁ _ hy hrest₁ => ?_
    subst hy
    exact .bind (statementEnd_yields hrest₁) fun _ _ _ _ hks =>
      .pure (stays_node (draws_node drawsAll_nil)) hks
  | _ => cases hk

theorem stands_empty : (node .empty constant []).Stands := by
  intro ts ks hts _
  rw [written_node] at hts
  obtain ⟨span, more, rfl, hmore⟩ := exists_token hts
  unfold statement
  exact .pure (stays_node (draws_node drawsAll_nil)) hmore

theorem stands_function {name : Option String} {params : List String} (hb : body.Blocks) :
    (node (.function name params) constant [body]).Stands := by
  intro ts ks hts _
  rw [written_node] at hts
  have hparts : ts.map Token.kind =
      pieceTokens (functionPieces name params [body.written]) ++ ks := hts
  obtain ⟨rest, hpieces⟩ : ∃ rest, functionPieces name params [body.written] =
      .token (.keyword .function) :: rest := by
    cases name <;> exact ⟨_, rfl⟩
  have hbegin := hparts
  rw [hpieces] at hbegin
  obtain ⟨span, more, rfl, -⟩ := exists_token hbegin
  have hfunction : Yields (functionTail span more)
      (Draft.Draws (node (.function name params) constant [body])) ks :=
    functionTail_yields hb hparts
  unfold statement
  refine .bind hfunction fun d rest₁ _ hd hrest₁ => ?_
  exact .pure (stays_of_draws hd (by simp)) hrest₁

end Shape

end Hoist
