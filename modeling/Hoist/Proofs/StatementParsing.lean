import Hoist.Proofs.OperatorParsing

namespace Hoist

/-- Whether a token begins no statement. -/
def TokenKind.endsStatements : TokenKind → Bool
  | .keyword .else_ | .keyword .case_ | .keyword .default_ | .mark .closeBrace => true
  | _ => false

/-- A draft makes one node of a certain shape, and nothing has to be put around it where exactly one
statement stands. -/
structure Draft.Stays (s : Shape) (d : Draft) : Prop where
  draws : Draft.Draws s d
  single : ∀ start, Hoist.single start d = d

theorem stays_node {s : Shape} {kind : Kind} {span : Span} {before after : List Draft}
    (h : Draft.Draws s (.node kind span before after)) :
    Draft.Stays s (.node kind span before after) := ⟨h, fun _ => rfl⟩

namespace Shape

variable {constant : Bool} {s a b : Shape} {ss : List Shape} {ts : List Token}
  {ks : List TokenKind}

/-- A statement is read as itself, except in front of an `else` that would be taken for its own. -/
def Stands (s : Shape) : Prop := ∀ ts ks, ts.map Token.kind = pieceTokens s.written.statement ++ ks →
  ks.head? ≠ some (.keyword .else_) → Yields (statement ts) (Draft.Stays s) ks

/-- An expression and a statement are read as themselves. -/
structure Readable (s : Shape) : Prop where
  expression : s.Proper .expression → s.Climbs
  statement : s.Proper .statement → s.Stands

/-- The tokens of several statements. -/
def statementTokens (ss : List Shape) : List TokenKind :=
  ss.flatMap fun s => pieceTokens s.written.statement

theorem statementTokens_cons (s : Shape) (ss : List Shape) :
    statementTokens (s :: ss) = pieceTokens s.written.statement ++ statementTokens ss :=
  List.flatMap_cons

theorem tokens_joinedStatements (ss : List Shape) :
    pieceTokens (joinedStatements (ss.map written)) = statementTokens ss := by
  induction ss with
  | nil => rfl
  | cons s ss ih =>
    cases ss with
    | nil => simp [joinedStatements, statementTokens]
    | cons s' ss =>
      have hjoined : joinedStatements ((s :: s' :: ss).map written) =
          s.written.statement ++ (.space :: joinedStatements ((s' :: ss).map written)) := by
        simp [joinedStatements]
      rw [hjoined, pieceTokens_append, pieceTokens_space, ih, statementTokens_cons s]

theorem tokens_spacedStatements (ss : List Shape) :
    pieceTokens (spacedStatements (ss.map written)) = statementTokens ss := by
  induction ss with
  | nil => rfl
  | cons s ss ih =>
    have hspaced : spacedStatements ((s :: ss).map written) =
        .space :: (s.written.statement ++ spacedStatements (ss.map written)) := by
      simp [spacedStatements]
    rw [hspaced, pieceTokens_space, pieceTokens_append, ih, statementTokens_cons]

theorem tokens_block (constant : Bool) (ss : List Shape) :
    pieceTokens (node .block constant ss).written.statement =
      .mark .openBrace :: (statementTokens ss ++ [.mark .closeBrace]) := by
  rw [statement_written rfl (by simp), ← tokens_joinedStatements]
  cases ss with
  | nil => rfl
  | cons s ss => simp [layout, Piece.mark]

/-- The expression of a statement is in parentheses where it would be taken for a function or a
block. -/
theorem tokens_expression (constant : Bool) (he : Opens a.written.pieces) : ∃ ps, Opens ps ∧
    pieceTokens (node .expression constant [a]).written.statement =
      pieceTokens ps ++ [.mark .semicolon] ∧
    (pieceTokens ps).head? ≠ some (.mark .openBrace) ∧
    (pieceTokens ps).head? ≠ some (.keyword .function) ∧
    (ps = a.written.expression commaLevel ∨
      ps = parenthesized (a.written.expression commaLevel)) := by
  rw [statement_written rfl (by simp)]
  have hopens := opens_expression he commaLevel
  simp only [layout, List.map_cons, List.map_nil, expressionAt, List.getElem?_cons_zero]
  split
  · refine ⟨parenthesized (a.written.expression commaLevel), .token rfl _ (by simp), ?_, ?_, ?_,
      .inr rfl⟩
    · simp [Piece.mark]
    · simp [parenthesized, Piece.mark]
    · simp [parenthesized, Piece.mark]
  · rename_i hstarts
    rw [Bool.or_eq_true, not_or] at hstarts
    refine ⟨a.written.expression commaLevel, hopens, by simp [Piece.mark], ?_, ?_, .inl rfl⟩
    all_goals
      obtain ⟨k, rest, hk, -⟩ := hopens
      rw [hk] at hstarts ⊢
      rintro he
      obtain rfl := Option.some.inj he
    · exact hstarts.2 (by simp [startsWith, toList_piecesText, TokenKind.spelling, Mark.spelling])
    · exact hstarts.1 (by simp [startsWith, toList_piecesText, TokenKind.spelling, Keyword.spelling])

/-- Some token begins a statement. -/
theorem Made.opensStatement (h : s.Proper .statement) :
    ∃ k rest, pieceTokens s.written.statement = k :: rest ∧ k.endsStatements = false := by
  cases h.statementForm with
  | block constant ss => exact ⟨_, _, tokens_block constant ss, rfl⟩
  | expression constant e he =>
    obtain ⟨ps, hopens, htokens, -⟩ := tokens_expression constant he.opens
    obtain ⟨k, rest, rfl, hk, -⟩ := hopens
    refine ⟨k, _, htokens, ?_⟩
    cases k with
    | keyword w => cases w <;> first | rfl | cases hk
    | mark m => cases m <;> first | rfl | cases hk
    | _ => rfl
  | empty =>
    rw [written_node]
    exact ⟨_, _, rfl, rfl⟩
  | @jump kind keyword label constant hk =>
    cases kind with
    | break_ x | continue_ x =>
      rw [statement_written rfl (by simp)]
      cases x <;> exact ⟨_, _, rfl, rfl⟩
    | _ => cases hk
  | function name params constant body =>
    rw [written_node]
    cases name <;> exact ⟨_, _, rfl, rfl⟩
  | _ =>
    rw [statement_written rfl (by simp)]
    exact ⟨_, _, rfl, rfl⟩

/-- Statements are read one after the other up to a token that ends them. -/
theorem statements_yields {ends : TokenKind → Bool}
    (hends : ∀ k, ends k = true → k.endsStatements = true) (hs : ∀ s ∈ ss, s.Proper .statement)
    (hstands : ∀ s ∈ ss, s.Stands) (hts : ts.map Token.kind = statementTokens ss ++ ks)
    (hks : ∀ k ∈ ks.head?, ends k = true ∧ k ≠ .keyword .else_) :
    Yields (statements ends ts) (Draft.DrawsAll ss) ks := by
  induction ss generalizing ts with
  | nil =>
    have hts : ts.map Token.kind = ks := hts
    unfold statements
    cases ts with
    | nil => exact .pure drawsAll_nil hts
    | cons t more =>
      subst hts
      dsimp only
      rw [if_pos (hks t.kind rfl).1]
      exact .pure drawsAll_nil rfl
  | cons s ss ih =>
    obtain ⟨hfirst, hothers⟩ := List.forall_mem_cons.mp hs
    obtain ⟨hstand, hstandings⟩ := List.forall_mem_cons.mp hstands
    obtain ⟨k, rest, htokens, hk⟩ := hfirst.opensStatement
    rw [statementTokens_cons, List.append_assoc] at hts
    have hbegin : ts.map Token.kind = k :: (rest ++ (statementTokens ss ++ ks)) := by
      rw [hts, htokens, List.cons_append]
    have hgoes : ends k = false := by
      cases he : ends k with
      | false => rfl
      | true => rw [hends k he] at hk; cases hk
    have helse : (statementTokens ss ++ ks).head? ≠ some (.keyword .else_) := by
      cases ss with
      | nil => exact fun he => (hks _ he).2 rfl
      | cons s' ss =>
        obtain ⟨k', rest', htokens', hk'⟩ := (hothers s' List.mem_cons_self).opensStatement
        rw [statementTokens_cons, htokens']
        intro he
        obtain rfl := Option.some.inj he
        cases hk'
    have hyields := hstand ts _ hts helse
    obtain ⟨span, more, rfl, -⟩ := exists_token hbegin
    unfold statements
    simp only [hgoes, Bool.false_eq_true, if_false]
    refine .bind hyields fun d rest₁ _ hd hrest₁ => ?_
    exact .bind (ih hothers hstandings hrest₁) fun ds _ _ hds hks =>
      .pure (drawsAll_cons hd.draws hds) hks

/-- A block is read as itself where its statements are. -/
theorem blocks_node (hs : ∀ s ∈ ss, s.Proper .statement) (hstands : ∀ s ∈ ss, s.Stands) :
    (node .block constant ss).Blocks := by
  intro ts ks hts
  rw [tokens_block] at hts
  have hparts : ts.map Token.kind =
      .mark .openBrace :: (statementTokens ss ++ .mark .closeBrace :: ks) := by
    simpa using hts
  unfold block
  refine .bind (expect_yields hparts) fun start rest₁ _ _ hrest₁ => ?_
  refine .bind (statements_yields ?_ hs hstands hrest₁ ?_) fun ds rest₂ _ hds hrest₂ => ?_
  · intro k hk
    obtain rfl := of_decide_eq_true hk
    rfl
  · intro k hk
    obtain rfl := Option.some.inj hk
    exact ⟨rfl, by simp⟩
  exact .bind (expect_yields hrest₂) fun _ _ _ _ hks => .pure (draws_node hds) hks

/-- A block is read as itself where what it is made of is. -/
theorem Made.blocks (h : s.Proper .block) (ih : ∀ d ∈ s.children, d.Readable) : s.Blocks := by
  obtain ⟨constant, ss, rfl, hss⟩ := h.block
  exact blocks_node hss fun s hs => (ih s hs).statement (hss s hs)

/-- A body that was made a block is read as one. -/
theorem body_yields (h : s.Proper .block) (hb : s.Blocks)
    (hts : ts.map Token.kind = pieceTokens s.written.statement ++ ks) :
    Yields (body ts) (Draft.Draws s) ks := by
  have hyields := hb ts ks hts
  obtain ⟨constant, ss, rfl, -⟩ := h.block
  rw [tokens_block] at hts
  obtain ⟨span, more, rfl, -⟩ := exists_token hts
  unfold body
  exact hyields

theorem header_yields (he : s.Climbs)
    (hts : ts.map Token.kind =
      pieceTokens (parenthesized (s.written.expression commaLevel)) ++ ks) :
    Yields (header ts) (Draft.Draws s) ks := by
  have hparts : ts.map Token.kind = .mark .openParen ::
      (pieceTokens (s.written.expression commaLevel) ++ .mark .closeParen :: ks) := by
    simpa [parenthesized, Piece.mark] using hts
  unfold header
  refine .bind (expect_yields hparts) fun _ rest₁ _ _ hrest₁ => ?_
  refine .bind (he.expression rest₁ _ hrest₁ (.cons (by decide) _)) fun d rest₂ _ hd hrest₂ => ?_
  exact .bind (expect_yields hrest₂) fun _ _ _ _ hks => .pure hd hks

/-- A declarator is read as itself where neither a comma nor an operator follows. -/
theorem declarator_yields (h : s.Proper .declarator) (ih : ∀ d ∈ s.children, d.Readable)
    (hts : ts.map Token.kind = pieceTokens (declaratorPieces s.written) ++ ks)
    (hks : Stops 4 ks) : Yields (declarator ts) (Draft.Draws s) ks := by
  obtain ⟨x, constant, values, rfl, -, hvalues⟩ := h.declarator
  unfold declarator
  rcases hvalues with rfl | ⟨value, rfl, hvalue⟩
  · have hparts : ts.map Token.kind = .symbol x :: ks := by
      simpa [declaratorPieces, Kind.name?, Piece.symbol] using hts
    refine .bind (expectName_yields hparts) fun name rest₁ _ hname hrest₁ => ?_
    dsimp only
    rw [eat?_none hrest₁ (hks.ne (by decide))]
    subst hname
    exact .pure (draws_node drawsAll_nil) hrest₁
  · have hparts : ts.map Token.kind =
        .symbol x :: .mark .assign :: (pieceTokens (value.written.expression assignLevel) ++ ks) := by
      simpa [declaratorPieces, Kind.name?, Piece.symbol, Piece.mark] using hts
    have hclimbs := (ih value List.mem_cons_self).expression hvalue
    have hclosed : Closed assignment 4 (value.written.expression assignLevel) value :=
      hclimbs.slot 3 (by decide)
    refine .bind (expectName_yields hparts) fun name rest₁ _ hname hrest₁ => ?_
    dsimp only
    obtain ⟨span, more, hlt, heat, hmore⟩ := eat?_some hrest₁
    rw [heat]
    refine .bind (hclosed more ks hmore hks) fun d rest₂ _ hd hrest₂ => ?_
    subst hname
    exact .pure (draws_node (drawsAll_cons hd drawsAll_nil)) hrest₂

theorem drawsAll_of_forall₂ {ds : List Draft} (h : List.Forall₂ Draft.Draws ss ds) :
    Draft.DrawsAll ss ds := by
  induction h with
  | nil => exact drawsAll_nil
  | cons h _ ih => exact drawsAll_cons h ih

theorem declarators_yields (hne : ss ≠ []) (hs : ∀ s ∈ ss, s.Proper .declarator)
    (ih : ∀ s ∈ ss, ∀ d ∈ s.children, d.Readable)
    (hts : .keyword .var :: ts.map Token.kind =
      pieceTokens (declarationPieces (ss.map written)) ++ ks) (hks : Stops 1 ks) :
    Yields (declarators ts) (List.Forall₂ Draft.Draws ss) ks := by
  induction ss generalizing ts with
  | nil => exact absurd rfl hne
  | cons s ss ihs =>
    obtain ⟨hfirst, hothers⟩ := List.forall_mem_cons.mp hs
    obtain ⟨ihfirst, ihothers⟩ := List.forall_mem_cons.mp ih
    unfold declarators
    cases ss with
    | nil =>
      have hparts : ts.map Token.kind = pieceTokens (declaratorPieces s.written) ++ ks := by
        simpa [declarationPieces, Piece.keyword] using hts
      refine .bind (declarator_yields hfirst ihfirst hparts (hks.mono (by decide)))
        fun d rest₁ _ hd hrest₁ => ?_
      dsimp only
      rw [eat?_none hrest₁ (hks.ne (by decide))]
      exact .pure (.cons hd .nil) hrest₁
    | cons s' ss =>
      have hparts : ts.map Token.kind = pieceTokens (declaratorPieces s.written) ++ .mark .comma ::
          (pieceTokens (Piece.comma.intercalate
            (((s' :: ss).map written).map declaratorPieces)) ++ ks) := by
        simpa [declarationPieces, Piece.keyword, Piece.comma, Piece.mark] using hts
      refine .bind (declarator_yields hfirst ihfirst hparts (.cons (by decide) _))
        fun d rest₁ _ hd hrest₁ => ?_
      dsimp only
      obtain ⟨span, more, hlt, heat, hmore⟩ := eat?_some hrest₁
      rw [heat]
      have hmore : .keyword .var :: more.map Token.kind =
          pieceTokens (declarationPieces ((s' :: ss).map written)) ++ ks := by
        rw [hmore]
        simp [declarationPieces, Piece.keyword]
      exact .bind (ihs (List.cons_ne_nil _ _) hothers ihothers hmore) fun ds _ _ hds hks =>
        .pure (.cons hd hds) hks

/-- A part of the header of a loop is read up to the mark that ends it. -/
theorem optional_yields {start : Span} {close : Mark} (h : s.Proper .optional) (ih : s.Readable)
    (hclose : (TokenKind.mark close).opensOperand = false)
    (hloose : (TokenKind.mark close).tightness = 0)
    (hts : ts.map Token.kind =
      pieceTokens (s.written.expression commaLevel) ++ .mark close :: ks) :
    Yields (optional start close ts) (Draft.Draws s) ks := by
  unfold optional
  rcases h.optional with ⟨constant, rfl⟩ | he
  · rw [written_node] at hts
    have hmark : ts.map Token.kind = .mark close :: ks := hts
    obtain ⟨span, more, hlt, heat, hmore⟩ := eat?_some hmark
    rw [heat]
    exact .pure (draws_node drawsAll_nil) hmore
  · have hopens := opens_expression he.opens commaLevel
    rw [eat?_none hts (hopens.head_ne hclose _)]
    refine .bind ((ih.expression he).expression ts _ hts (.cons (by omega) _))
      fun d rest₁ _ hd hrest₁ => ?_
    exact .bind (expect_yields hrest₁) fun _ _ _ _ hks => .pure hd hks

/-- The initializer of a loop is read up to its semicolon. -/
theorem initializer_yields {start : Span} (h : s.Proper .initial)
    (ih : ∀ d ∈ s :: s.inside, d.Readable)
    (hts : ts.map Token.kind = pieceTokens (initialPieces s.written) ++ .mark .semicolon :: ks) :
    Yields (initializer start ts) (Draft.Draws s) ks := by
  rcases h.initial with ⟨constant, rfl⟩ | ⟨constant, ss, rfl, hne, hss⟩ | he
  · rw [written_node] at hts
    obtain ⟨span, more, rfl, hmore⟩ := exists_token hts
    unfold initializer
    exact .pure (draws_node drawsAll_nil) hmore
  · rw [written_node] at hts
    obtain ⟨span, more, rfl, hmore⟩ := exists_token hts
    have hinside : ∀ s ∈ ss, ∀ d ∈ s.children, d.Readable := fun s hs d hd =>
      ih d (List.mem_cons_of_mem _ (inside_trans (s := .node .var constant ss) hs
        (inside_child hd)))
    unfold initializer
    refine .bind (declarators_yields hne hss hinside hts (.cons (by decide) _))
      fun ds rest₁ _ hds hrest₁ => ?_
    refine .bind (expect_yields hrest₁) fun _ _ _ _ hks => .pure (draws_node ?_) hks
    rw [List.append_nil]
    exact drawsAll_of_forall₂ hds
  · have hpieces : initialPieces s.written = s.written.expression commaLevel := by
      have hkind := he.isExpression
      obtain ⟨kind, constant, ss⟩ := s
      rw [written_node]
      cases kind <;> first | rfl | cases hkind
    rw [hpieces] at hts
    have hyields := (ih s List.mem_cons_self).expression he |>.expression ts _ hts
      (.cons (by decide) _)
    obtain ⟨k, rest, hk, hopens, -⟩ := opens_expression he.opens commaLevel
    have hbegin := hts
    rw [hk] at hbegin
    unfold initializer
    split
    · obtain rfl := (List.cons.inj hbegin).1
      cases hopens
    · obtain rfl := (List.cons.inj hbegin).1
      cases hopens
    · refine .bind hyields fun d rest₁ _ hd hrest₁ => ?_
      exact .bind (expect_yields hrest₁) fun _ _ _ _ hks => .pure hd hks

/-- The clauses of a `switch` are read up to its closing brace. -/
theorem clauses_yields (hs : ∀ s ∈ ss, s.Proper .clause) (ih : ∀ s ∈ ss, ∀ d ∈ s.inside, d.Readable)
    (hts : ts.map Token.kind = statementTokens ss ++ .mark .closeBrace :: ks) :
    Yields (clauses ts) (Draft.DrawsAll ss) ks := by
  induction ss generalizing ts with
  | nil =>
    obtain ⟨span, more, rfl, hmore⟩ := exists_token hts
    unfold clauses
    exact .pure drawsAll_nil hmore
  | cons s ss ihs =>
    obtain ⟨hfirst, hothers⟩ := List.forall_mem_cons.mp hs
    obtain ⟨ihfirst, ihothers⟩ := List.forall_mem_cons.mp ih
    have hends : ∀ k, endsClause k = true → k.endsStatements = true := by
      intro k hk
      cases k with
      | keyword w => cases w <;> first | rfl | cases hk
      | mark m => cases m <;> first | rfl | cases hk
      | _ => cases hk
    have hnext : ∀ k ∈ (statementTokens ss ++ .mark .closeBrace :: ks).head?,
        endsClause k = true ∧ k ≠ .keyword .else_ := by
      intro k hk
      cases ss with
      | nil =>
        obtain rfl := Option.some.inj hk
        exact ⟨rfl, by simp⟩
      | cons s' ss =>
        rw [statementTokens_cons] at hk
        obtain ⟨constant, body, -, ⟨test, rfl, -⟩ | rfl⟩ := (hothers s' List.mem_cons_self).clause
        all_goals
          rw [statement_written rfl (by simp)] at hk
          obtain rfl := Option.some.inj hk
          exact ⟨rfl, by simp⟩
    rw [statementTokens_cons, List.append_assoc] at hts
    obtain ⟨constant, body, hb, hform⟩ := hfirst.clause
    obtain ⟨constant', inner, rfl, hinner⟩ := hb.block
    have hinside : ∀ {d : Shape}, d ∈ inner → (node .block constant' inner) ∈ s.children →
        d.Readable := fun hd hm =>
      ihfirst _ (inside_trans hm (inside_child (s := node .block constant' inner) hd))
    rcases hform with ⟨test, rfl, ht⟩ | rfl
    · have hparts : ts.map Token.kind = .keyword .case_ ::
          (pieceTokens (test.written.expression commaLevel) ++ .mark .colon ::
            (statementTokens inner ++ (statementTokens ss ++ .mark .closeBrace :: ks))) := by
        rw [hts, statement_written rfl (by simp)]
        simp [layout, expressionAt, Piece.keyword, Piece.mark, tokens_spacedStatements]
      obtain ⟨span, more, rfl, hmore⟩ := exists_token hparts
      have htest := (ihfirst test (inside_child List.mem_cons_self)).expression ht
      have hstands : ∀ d ∈ inner, d.Stands := fun d hd =>
        (hinside hd (by simp [children])).statement (hinner d hd)
      unfold clauses
      refine .bind (htest.expression more _ hmore (.cons (by decide) _))
        fun e rest₁ _ he hrest₁ => ?_
      refine .bind (expect_yields hrest₁) fun _ rest₂ _ _ hrest₂ => ?_
      refine .bind (statements_yields hends hinner hstands hrest₂ hnext)
        fun ds rest₃ _ hds hrest₃ => ?_
      refine .bind (ihs hothers ihothers hrest₃) fun others rest₄ _ hrest hks => ?_
      exact .pure (drawsAll_cons (draws_two he (draws_node hds)) hrest) hks
    · have hparts : ts.map Token.kind = .keyword .default_ :: .mark .colon ::
          (statementTokens inner ++ (statementTokens ss ++ .mark .closeBrace :: ks)) := by
        rw [hts, statement_written rfl (by simp)]
        simp [layout, Piece.keyword, Piece.mark, tokens_spacedStatements]
      obtain ⟨span, more, rfl, hmore⟩ := exists_token hparts
      have hstands : ∀ d ∈ inner, d.Stands := fun d hd =>
        (hinside hd (by simp [children])).statement (hinner d hd)
      unfold clauses
      refine .bind (expect_yields hmore) fun _ rest₁ _ _ hrest₁ => ?_
      refine .bind (statements_yields hends hinner hstands hrest₁ hnext)
        fun ds rest₂ _ hds hrest₂ => ?_
      refine .bind (ihs hothers ihothers hrest₂) fun others rest₃ _ hrest hks => ?_
      exact .pure (drawsAll_cons (draws_one (draws_node hds)) hrest) hks

end Shape

end Hoist
