import Hoist.Proofs.Climbing

namespace Hoist

/-- Drafts make one node for each of some shapes. -/
def Draft.DrawsAll (ss : List Shape) (ds : List Draft) : Prop :=
  Draft.allShapes ds = ss.map Shape.marked

section Drawing

variable {kind : Kind} {constant : Bool} {span : Span} {a b c : Shape} {l m r : Draft}

theorem draws_node {ss : List Shape} {before after : List Draft}
    (h : Draft.DrawsAll ss (before ++ after)) :
    Draft.Draws (.node kind constant ss) (.node kind span before after) := by
  have happend : Draft.allShapes (before ++ after) =
      Draft.allShapes before ++ Draft.allShapes after := by
    clear h
    induction before with
    | nil => rfl
    | cons d before ih => simp [Draft.allShapes, ih]
  rw [Draft.Draws, Draft.shapes, ← happend, h, Shape.marked]

theorem drawsAll_nil : Draft.DrawsAll [] [] := rfl

theorem drawsAll_cons {ss : List Shape} {ds : List Draft} (h : Draft.Draws a l)
    (hs : Draft.DrawsAll ss ds) : Draft.DrawsAll (a :: ss) (l :: ds) := by
  rw [Draft.DrawsAll, Draft.allShapes, h, hs]
  rfl

theorem draws_one (h : Draft.Draws a l) :
    Draft.Draws (.node kind constant [a]) (.node kind span [l] []) :=
  draws_node (drawsAll_cons h drawsAll_nil)

theorem draws_two (hl : Draft.Draws a l) (hr : Draft.Draws b r) :
    Draft.Draws (.node kind constant [a, b]) (.node kind span [l, r] []) :=
  draws_node (drawsAll_cons hl (drawsAll_cons hr drawsAll_nil))

theorem draws_three (hl : Draft.Draws a l) (hm : Draft.Draws b m) (hr : Draft.Draws c r) :
    Draft.Draws (.node kind constant [a, b, c]) (.node kind span [l, m, r] []) :=
  draws_node (drawsAll_cons hl (drawsAll_cons hm (drawsAll_cons hr drawsAll_nil)))

end Drawing

theorem Prefixless.append {ps : List Piece} (h : Prefixless ps) (qs : List Piece) :
    Prefixless (ps ++ qs) := by
  obtain ⟨k, rest, rfl, hk⟩ := h
  exact ⟨k, rest ++ qs, rfl, hk⟩

/-- A token that cannot be the first one of an operand does not come first. -/
theorem Opens.head_ne {ps : List Piece} (h : Opens ps) {k : TokenKind} (hk : k.opensOperand = false)
    (ks : List TokenKind) : (pieceTokens ps ++ ks).head? ≠ some k := by
  obtain ⟨l, rest, rfl, hl, -⟩ := h
  intro he
  obtain rfl := Option.some.inj he
  rw [hk] at hl
  cases hl

namespace Shape

variable {constant : Bool} {a b c : Shape} {ss : List Shape}

theorem climbs_of {kind : Kind} {level : Nat} (hl : kind.level? = some level)
    (h : Rung level (layout kind (ss.map written)) (.node kind constant ss)) :
    (node kind constant ss).Climbs := by
  rw [Climbs, pieces_written, kind_node, hl]
  exact h

/-- A literal or a name is one token. -/
theorem climbs_leaf {k : TokenKind} {kind : Kind} (hk : literal? k = some kind)
    (hpieces : layout kind [] = [.token k]) (hlevel : kind.level? = some primaryLevel) :
    (node kind constant []).Climbs := by
  refine climbs_of hlevel ?_
  rw [List.map_nil, hpieces]
  refine ⟨fun ts ks hts hstops => ?_, ⟨k, [], rfl, ?_⟩, ?_⟩
  · obtain ⟨span, rest, rfl, hrest⟩ := exists_token hts
    unfold primary
    cases k with
    | symbol | number | text =>
      cases hk
      exact .pure (draws_node drawsAll_nil) hrest
    | keyword w => cases w <;> cases hk <;> exact .pure (draws_node drawsAll_nil) hrest
    | mark m => cases hk
  · cases k with
    | keyword w => cases w <;> cases hk <;> exact ⟨rfl, rfl⟩
    | mark m => cases hk
    | _ => exact ⟨rfl, rfl⟩
  · cases k with
    | keyword w => cases w <;> cases hk <;> simp
    | mark m => cases hk
    | _ => simp

/-- Operands are read between commas up to a closing mark. -/
theorem items_yields {close : Mark} (hclose : (TokenKind.mark close).opensOperand = false)
    (hloose : (TokenKind.mark close).tightness = 0)
    (hs : ∀ s ∈ ss, s.Climbs) (ho : ∀ s ∈ ss, Opens s.written.pieces) {ts : List Token}
    {ks : List TokenKind}
    (hts : ts.map Token.kind = pieceTokens (joinedOperands (ss.map written)) ++ .mark close :: ks) :
    Yields (items close ts) (Draft.DrawsAll ss) ks := by
  induction ss generalizing ts with
  | nil =>
    unfold items
    obtain ⟨span, rest, hlt, heat, hrest⟩ := eat?_some hts
    rw [heat]
    exact .pure drawsAll_nil hrest
  | cons s ss ih =>
    obtain ⟨hfirst, hothers⟩ := List.forall_mem_cons.mp hs
    obtain ⟨hopens, hopenings⟩ := List.forall_mem_cons.mp ho
    have hitem : Closed assignment 4 (s.written.expression assignLevel) s :=
      hfirst.slot 3 (by decide)
    have hopens := opens_expression hopens assignLevel
    unfold items
    cases ss with
    | nil =>
      have hts : ts.map Token.kind =
          pieceTokens (s.written.expression assignLevel) ++ .mark close :: ks := by
        simpa [joinedOperands] using hts
      rw [eat?_none hts (hopens.head_ne hclose _)]
      refine .bind (hitem ts _ hts (.cons (by omega) _)) fun d rest _ hd hrest => ?_
      dsimp only
      rw [eat?_none hrest (by rintro he; cases he; cases hloose)]
      exact .bind (expect_yields hrest) fun _ _ _ _ hks => .pure (drawsAll_cons hd drawsAll_nil) hks
    | cons s' ss =>
      have hts : ts.map Token.kind = pieceTokens (s.written.expression assignLevel) ++
          .mark .comma :: (pieceTokens (joinedOperands ((s' :: ss).map written)) ++
            .mark close :: ks) := by
        rw [hts]
        simp [joinedOperands, Piece.comma, Piece.mark]
      rw [eat?_none hts (hopens.head_ne hclose _)]
      refine .bind (hitem ts _ hts (.cons (by decide) _)) fun d rest _ hd hrest => ?_
      dsimp only
      obtain ⟨span, more, hlt, heat, hmore⟩ := eat?_some hrest
      rw [heat]
      exact .bind (ih hothers hopenings hmore) fun _ _ _ hds hks => .pure (drawsAll_cons hd hds) hks

theorem climbs_array (hs : ∀ s ∈ ss, s.Climbs) (ho : ∀ s ∈ ss, Opens s.written.pieces) :
    (node .array constant ss).Climbs := by
  refine climbs_of rfl ⟨fun ts ks hts hstops => ?_, ⟨_, _, rfl, rfl, rfl⟩, by simp [layout, Piece.mark]⟩
  obtain ⟨span, more, rfl, hmore⟩ := exists_token hts
  simp only [List.append_eq, pieceTokens_append, List.append_assoc] at hmore
  unfold primary
  exact .bind (items_yields rfl rfl hs ho hmore) fun _ _ _ hds hks => .pure (draws_node hds) hks

/-- An entry is read as its key and its value. -/
theorem entry_tokens (x : String) (value : Written) : pieceTokens (entryPieces (.key x) [value]) =
    (if isNameLike x then .ofWord x else .text x) :: .mark .colon ::
      pieceTokens (value.expression assignLevel) := by
  simp only [entryPieces]
  split <;> rfl

theorem entries_yields (hs : ∀ s ∈ ss, ∃ (x : String) (constant : Bool) (value : Shape),
      s = .node (.key x) constant [value] ∧ value.Climbs) {ts : List Token} {ks : List TokenKind}
    (hts : ts.map Token.kind = pieceTokens (Piece.comma.intercalate (ss.map fun s =>
      entryPieces s.written.kind s.written.children)) ++ .mark .closeBrace :: ks) :
    Yields (entries ts) (Draft.DrawsAll ss) ks := by
  induction ss generalizing ts with
  | nil =>
    unfold entries
    obtain ⟨span, rest, hlt, heat, hrest⟩ := eat?_some hts
    rw [heat]
    exact .pure drawsAll_nil hrest
  | cons s ss ih =>
    obtain ⟨⟨x, constant, value, rfl, hvalue⟩, hothers⟩ := List.forall_mem_cons.mp hs
    have hitem : Closed assignment 4 (value.written.expression assignLevel) value :=
      hvalue.slot 3 (by decide)
    have hentry : ∀ more, ts.map Token.kind = pieceTokens (entryPieces (.key x) [value.written]) ++
        more → eat? (.mark .closeBrace) ts = none ∧ Yields (entryKey ts) (fun r => r.1 = x)
          (.mark .colon :: (pieceTokens (value.written.expression assignLevel) ++ more)) := by
      intro more hts
      rw [entry_tokens] at hts
      cases hname : isNameLike x with
      | true =>
        rw [hname] at hts
        refine ⟨eat?_none hts ?_, entryKey_yields (.inl hts)⟩
        rcases ofWord_eq x with ⟨k, hk, -⟩ | hx <;> simp [*]
      | false =>
        rw [hname] at hts
        exact ⟨eat?_none hts (by simp), entryKey_yields (.inr hts)⟩
    unfold entries
    cases ss with
    | nil =>
      obtain ⟨heat, hkey⟩ := hentry (.mark .closeBrace :: ks) (by simpa using hts)
      rw [heat]
      refine .bind hkey fun key rest₁ _ hx hrest₁ => ?_
      refine .bind (expect_yields hrest₁) fun _ rest₂ _ _ hrest₂ => ?_
      refine .bind (hitem rest₂ _ hrest₂ (.cons (by decide) _)) fun d rest₃ _ hd hrest₃ => ?_
      dsimp only
      rw [eat?_none hrest₃ (by simp)]
      refine .bind (expect_yields hrest₃) fun _ _ _ _ hks => .pure ?_ hks
      subst hx
      exact drawsAll_cons (draws_one hd) drawsAll_nil
    | cons s' ss =>
      obtain ⟨heat, hkey⟩ := hentry (.mark .comma :: (pieceTokens (Piece.comma.intercalate
        ((s' :: ss).map fun s => entryPieces s.written.kind s.written.children)) ++
          .mark .closeBrace :: ks)) (by simpa [Piece.comma, Piece.mark] using hts)
      rw [heat]
      refine .bind hkey fun key rest₁ _ hx hrest₁ => ?_
      refine .bind (expect_yields hrest₁) fun _ rest₂ _ _ hrest₂ => ?_
      refine .bind (hitem rest₂ _ hrest₂ (.cons (by decide) _)) fun d rest₃ _ hd hrest₃ => ?_
      dsimp only
      obtain ⟨span, more, hlt, hcomma, hmore⟩ := eat?_some hrest₃
      rw [hcomma]
      refine .bind (ih hothers hmore) fun _ _ _ hds hks => .pure ?_ hks
      subst hx
      exact drawsAll_cons (draws_one hd) hds

theorem climbs_object (hs : ∀ s ∈ ss, ∃ (x : String) (constant : Bool) (value : Shape),
    s = .node (.key x) constant [value] ∧ value.Climbs) : (node .object constant ss).Climbs := by
  refine climbs_of rfl ⟨fun ts ks hts hstops => ?_, ⟨_, _, rfl, rfl, rfl⟩, by simp [layout, Piece.mark]⟩
  obtain ⟨span, more, rfl, hmore⟩ := exists_token hts
  simp only [List.append_eq, pieceTokens_append, List.append_assoc, List.map_map] at hmore
  unfold primary
  exact .bind (entries_yields hs hmore) fun _ _ _ hds hks => .pure (draws_node hds) hks

/-- A block is read as itself whatever follows. -/
def Blocks (s : Shape) : Prop := ∀ ts ks, ts.map Token.kind = pieceTokens s.written.statement ++ ks →
  Yields (block ts) (Draft.Draws s) ks

/-- A function is read after its reserved word. -/
theorem functionTail_yields {name : Option String} {params : List String} (hb : a.Blocks)
    {start : Span} {ts : List Token} {ks : List TokenKind}
    (hts : .keyword .function :: ts.map Token.kind =
      pieceTokens (functionPieces name params [a.written]) ++ ks) :
    Yields (functionTail start ts) (Draft.Draws (.node (.function name params) constant [a])) ks := by
  have hparts : ts.map Token.kind = (name.map TokenKind.symbol).toList ++ .mark .openParen ::
      (pieceTokens (Piece.comma.intercalate (params.map fun p => [Piece.symbol p])) ++
        .mark .closeParen :: (pieceTokens a.written.statement ++ ks)) := by
    cases name <;> simpa [functionPieces, statementAt, parenthesized, Piece.mark, Piece.keyword,
      Piece.symbol] using hts
  unfold functionTail
  refine .bind (optionalName_yields hparts (by simp)) fun x rest₁ _ hx hrest₁ => ?_
  refine .bind (expect_yields hrest₁) fun _ rest₂ _ _ hrest₂ => ?_
  refine .bind (parameters_yields hrest₂) fun xs rest₃ _ hxs hrest₃ => ?_
  refine .bind (hb rest₃ _ hrest₃) fun body rest₄ _ hbody hrest₄ => ?_
  subst hx hxs
  exact .pure (draws_one hbody) hrest₄

theorem climbs_function {name : Option String} {params : List String} (hb : a.Blocks) :
    (node (.function name params) constant [a]).Climbs := by
  have hhead : ∃ rest, functionPieces name params [a.written] =
      .token (.keyword .function) :: rest := by
    cases name <;> exact ⟨_, rfl⟩
  obtain ⟨rest, hpieces⟩ := hhead
  have hlayout : layout (.function name params) ([a].map written) =
      .token (.keyword .function) :: rest := hpieces
  refine climbs_of rfl ?_
  refine ⟨fun ts ks hts hstops => ?_, ⟨_, rest, hlayout, rfl, rfl⟩, by rw [hlayout]; simp⟩
  have hts' := hts
  rw [hlayout] at hts'
  obtain ⟨span, more, rfl, -⟩ := exists_token hts'
  unfold primary
  exact .bind (functionTail_yields hb hts) fun _ _ _ hd hks => .pure hd hks

/-- What can stand before a point, a bracket or a parenthesis. -/
theorem Climbs.reached (h : a.Climbs) {calls : Bool}
    (hc : calls = true ∨ a.written.callsThrough = false) :
    Reached calls (a.written.expression callLevel) a := by
  have hrung : Rung 18 (a.written.expression callLevel) a := h.slot 18 (by decide)
  cases calls with
  | true => exact hrung.1
  | false => exact hrung.2.1 (hc.resolve_left (by simp))

theorem Climbs.prefixless (h : a.Climbs) : Prefixless (a.written.expression callLevel) :=
  (h.slot 18 (by decide)).2.2

theorem Climbs.expression (h : a.Climbs) : Closed expression 1 (a.written.expression commaLevel) a :=
  closed_expression (h.slot 1 (by decide))

theorem climbs_call (ha : a.Climbs) (hs : ∀ s ∈ ss, s.Climbs)
    (ho : ∀ s ∈ ss, Opens s.written.pieces) : (node .call constant (a :: ss)).Climbs := by
  refine climbs_of rfl ⟨?_, ?_, ha.prefixless.append _⟩
  · intro ts ks Q ks' hts hnext
    refine ha.reached (.inl rfl) ts (.mark .openParen :: (pieceTokens (joinedOperands (ss.map written)) ++
      .mark .closeParen :: ks)) Q ks' (by simpa [layout, parenthesized, Piece.mark, expressionAt] using hts) ?_
    intro d rest hd hrest
    obtain ⟨span, more, rfl, hmore⟩ := exists_token hrest
    unfold accessTail
    refine .bind (items_yields rfl rfl hs ho hmore) fun ds rest' _ hds hrest' => ?_
    refine .bind (hnext _ rest' (draws_node (drawsAll_cons hd hds)) hrest') fun _ _ _ hq hks => .pure hq hks
  · intro h
    rw [written_node] at h
    cases h

theorem climbs_property {x : String} (ha : a.Climbs) : (node (.property x) constant [a]).Climbs := by
  have hreached : ∀ calls, (calls = true ∨ a.written.callsThrough = false) →
      Reached calls (layout (.property x) ([a].map written)) (node (.property x) constant [a]) := by
    intro calls hcalls ts ks Q ks' hts hnext
    refine ha.reached hcalls ts (.mark .dot :: .ofWord x :: ks) Q ks'
      (by simpa [layout, Piece.mark, Piece.word, expressionAt] using hts) ?_
    intro d rest hd hrest
    obtain ⟨span, more, rfl, hmore⟩ := exists_token hrest
    unfold accessTail
    refine .bind (propertyName_yields hmore) fun name rest' _ hx hrest' => ?_
    subst hx
    exact .bind (hnext _ rest' (draws_one hd) hrest') fun _ _ _ hq hks => .pure hq hks
  refine climbs_of rfl ⟨hreached true (.inl rfl), fun h => ?_, ha.prefixless.append _⟩
  rw [written_node] at h
  exact hreached false (.inr h)

theorem climbs_element (ha : a.Climbs) (hb : b.Climbs) : (node .element constant [a, b]).Climbs := by
  have hreached : ∀ calls, (calls = true ∨ a.written.callsThrough = false) →
      Reached calls (layout .element ([a, b].map written)) (node .element constant [a, b]) := by
    intro calls hcalls ts ks Q ks' hts hnext
    refine ha.reached hcalls ts (.mark .openBracket :: (pieceTokens (b.written.expression commaLevel) ++
      .mark .closeBracket :: ks)) Q ks' (by simpa [layout, Piece.mark, expressionAt] using hts) ?_
    intro d rest hd hrest
    obtain ⟨span, more, rfl, hmore⟩ := exists_token hrest
    unfold accessTail
    refine .bind (hb.expression more _ hmore (.cons (by decide) _)) fun key rest₁ _ hkey hrest₁ => ?_
    refine .bind (expect_yields hrest₁) fun last rest₂ _ _ hrest₂ => ?_
    exact .bind (hnext _ rest₂ (draws_two hd hkey) hrest₂) fun _ _ _ hq hks => .pure hq hks
  refine climbs_of rfl ⟨hreached true (.inl rfl), fun h => ?_, ?_⟩
  · rw [written_node] at h
    exact hreached false (.inr h)
  · simp only [layout, List.append_assoc]
    exact ha.prefixless.append _

theorem climbs_new (ha : a.Climbs) (hs : ∀ s ∈ ss, s.Climbs)
    (ho : ∀ s ∈ ss, Opens s.written.pieces) : (node .new constant (a :: ss)).Climbs := by
  have hcallee : ∃ ps, layout .new ((a :: ss).map written) = [.keyword .new, .space] ++ ps ++
      parenthesized (joinedOperands (ss.map written)) ∧ Reached false ps a := by
    cases hc : a.written.callsThrough with
    | false => exact ⟨a.written.expression callLevel, by simp [layout, hc, expressionAt], ha.reached (.inr hc)⟩
    | true =>
      refine ⟨parenthesized (a.written.expression callLevel), by simp [layout, hc, expressionAt], ?_⟩
      have hrung : Rung 20 (parenthesized (a.written.expression callLevel)) a :=
        rung_parenthesized ((ha.slot 18 (by decide)).down (by decide) (by decide))
      exact reached_of_closed (hrung.down (n := 19) (by decide) (by decide)).1 false
  obtain ⟨ps, hlayout, hreached⟩ := hcallee
  refine climbs_of rfl ⟨?_, ?_⟩
  · intro ts ks hts hstops
    rw [hlayout] at hts
    obtain ⟨span, more, rfl, hmore⟩ := exists_token hts
    simp only [List.append_eq, pieceTokens_append, List.append_assoc, parenthesized, Piece.mark] at hmore
    let after := .mark .openParen :: (pieceTokens (joinedOperands (ss.map written)) ++
      .mark .closeParen :: ks)
    obtain ⟨base, rest, hlt, hbase, htail⟩ := hreached more after (Draft.Draws a) after
      (by simpa [after] using hmore) fun d rest hd hrest => by
        obtain ⟨span, more, rfl, -⟩ := exists_token hrest
        unfold accessTail
        exact .pure hd hrest
    unfold operand
    change Yields (operand more >>= _) _ _
    rw [hbase]
    change Yields (accessTail false base rest >>= _) _ _
    refine .bind htail fun d rest₂ _ hd hrest₂ => ?_
    obtain ⟨span, more', hlt', heat, hmore'⟩ := eat?_some hrest₂
    dsimp only
    rw [heat]
    exact .bind (items_yields rfl rfl hs ho hmore') fun _ _ _ hds hks =>
      .pure (draws_node (drawsAll_cons hd hds)) hks
  · rw [hlayout]
    exact ⟨_, _, rfl, rfl, rfl⟩

end Shape

end Hoist
