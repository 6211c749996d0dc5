import Hoist.Proofs.Sparing

namespace Hoist

theorem Kind.isLeftOpen_of_isLiteral {kind : Kind} (h : kind.isLiteral = true) :
    kind.isLeftOpen = false := by
  cases kind <;> first | rfl | cases h

theorem Kind.isLeftOpen_of_isInfix {kind : Kind} (h : kind.isInfix = true) :
    kind.isLeftOpen = true := by
  cases kind <;> first | rfl | cases h

theorem Kind.isLeftOpen_of_isAssignment {kind : Kind} (h : kind.isAssignment = true) :
    kind.isLeftOpen = true := by
  cases kind <;> first | rfl | cases h

/-- A node that begins with its first child is written with the text of this child in front. -/
theorem layout_leftOpen {kind : Kind} (hk : kind.isLeftOpen = true) (w : Written)
    (ws : List Written) : ∃ rest, layout kind (w :: ws) = w.expression kind.firstLevel ++ rest := by
  cases kind with
  | increment isDecrement isPostfix =>
    cases isPostfix with
    | false => cases hk
    | true => exact ⟨_, rfl⟩
  | comma | assign | assignOp | conditional | or_ | and_ | binary | call | property | element =>
    simp only [layout, List.append_assoc]
    exact ⟨_, rfl⟩
  | _ => cases hk

namespace Shape

theorem Made.first_of_leftOpen {P : Kind → Bool} {kind : Kind} {constant : Bool} {ss : List Shape}
    (hs : (Shape.node kind constant ss).Made P .expression) (hk : kind.isLeftOpen = true) :
    ∃ a rest, ss = a :: rest ∧ a.Made P .expression := by
  cases hs.form with
  | call _ a _ ha => exact ⟨_, _, rfl, ha⟩
  | property _ _ a _ ha => exact ⟨_, _, rfl, ha⟩
  | element _ a _ ha => exact ⟨_, _, rfl, ha⟩
  | assignment _ a _ _ _ ha => exact ⟨_, _, rfl, ha.expression_of_target⟩
  | conditional _ a _ _ ha => exact ⟨_, _, rfl, ha⟩
  | pair _ a _ _ ha => exact ⟨_, _, rfl, ha⟩
  | increment _ _ _ a ha => exact ⟨_, _, rfl, ha.expression_of_target⟩
  | literal _ hl =>
    rw [Kind.isLeftOpen_of_isLiteral hl] at hk
    cases hk
  | _ => cases hk

/-- A text that begins with a function or an object literal is that of an expression that does. -/
theorem Made.leads {P : Kind → Bool} {s : Shape} (hs : s.Made P .expression) {k : TokenKind}
    (hk : k.isLeading = true) (h : s.written.pieces.head? = some (.token k)) : s.leads = true := by
  induction s using Shape.induct with
  | node kind constant ss ih =>
    cases hopen : kind.isLeftOpen with
    | true =>
      obtain ⟨a, rest, rfl, ha⟩ := hs.first_of_leftOpen hopen
      obtain ⟨l, others, hpieces, -⟩ := opens_expression ha.opens kind.firstLevel
      obtain ⟨behind, hlayout⟩ := layout_leftOpen hopen a.written (rest.map written)
      rw [pieces_written, List.map_cons, hlayout, hpieces, List.cons_append, List.head?_cons] at h
      obtain rfl : l = k := Piece.token.inj (Option.some.inj h)
      have hlevel : a.written.kind.level?.getD primaryLevel = a.level := by rw [kind_written]; rfl
      rw [Written.expression, hlevel] at hpieces
      by_cases hl : a.level < kind.firstLevel
      · rw [if_pos hl] at hpieces
        obtain rfl := Piece.token.inj (List.cons.inj hpieces).1
        cases hk
      · rw [if_neg hl] at hpieces
        have ha' := ih a List.mem_cons_self ha (by rw [hpieces]; rfl)
        rw [leads_leftOpen hopen, decide_eq_true (Nat.not_lt.mp hl), ha', Bool.and_self]
    | false =>
      rw [leads_closed (s := .node kind constant ss) hopen, kind_node]
      rw [pieces_written] at h
      cases hs.form with
      | object => rfl
      | function => rfl
      | name => cases h; cases hk
      | literal _ hl =>
        cases kind with
        | number | text | true_ | false_ | null | this_ => cases h; cases hk
        | _ => cases hl
      | array | new => cases h; cases hk
      | unary op =>
        cases op with
        | negate | plus =>
          simp only [layout, unaryPieces] at h
          split at h <;> cases h <;> cases hk
        | _ => cases h; cases hk
      | increment isDecrement isPostfix =>
        cases isPostfix with
        | true => cases hopen
        | false => cases isDecrement <;> cases h <;> cases hk
      | pair _ _ _ hi =>
        rw [Kind.isLeftOpen_of_isInfix hi] at hopen
        cases hopen
      | assignment _ _ _ hi =>
        rw [Kind.isLeftOpen_of_isAssignment hi] at hopen
        cases hopen
      | _ => cases hopen

end Shape

/-- Only an opening brace begins with one. -/
theorem Lexeme.brace {cs : List Char} {k : TokenKind} (h : Lexeme ('\x7b' :: cs) k) :
    k = .mark .openBrace := by
  generalize hl : '\x7b' :: cs = lexeme at h
  cases h with
  | word hc =>
    obtain rfl := (List.cons.inj hl).1
    exact absurd hc (by decide)
  | whole h =>
    obtain rfl := (List.cons.inj hl).1
    exact absurd (h _ List.mem_cons_self) (by decide)
  | fraction h =>
    obtain rfl := (List.cons.inj hl).1
    exact absurd (h _ List.mem_cons_self) (by decide)
  | text hq =>
    obtain rfl := (List.cons.inj hl).1
    cases hq
  | mark m =>
    rw [m.spelling_chars] at hl
    have hc := (List.cons.inj hl).1
    revert hc
    cases m <;> decide

/-- A text that begins with a brace has one as its first token. -/
theorem brace_of_startsWith {k : TokenKind} {ps : List Piece} (hk : k.isLegible = true)
    (h : startsWith (.token k :: ps) "\x7b" = true) : k = .mark .openBrace := by
  obtain ⟨l, hl, hmark⟩ := lexeme_spelling hk
  obtain ⟨c, cs, hspelling⟩ := List.exists_cons_of_ne_nil hl.ne_nil
  rw [startsWith, toList_piecesText, pieceChars_token, hspelling] at h
  obtain rfl : '\x7b' = c := by simpa [List.isPrefixOf] using h
  rw [hspelling] at hl
  exact (hmark _).mp hl.brace

namespace Shape

theorem inside_inside {s c d : Shape} (hc : c ∈ s.inside) (hd : d ∈ c.inside) : d ∈ s.inside := by
  induction s using induct with
  | node kind constant ss ih =>
    rw [inside] at hc
    rcases List.mem_append.mp hc with hc | hc
    · exact inside_trans (s := .node kind constant ss) hc hd
    · obtain ⟨a, ha, hc⟩ := List.mem_flatMap.mp hc
      exact inside_trans (s := .node kind constant ss) ha (ih a ha hc)

/-- The text of an expression that begins with the letters of `function` begins with this word. -/
def BeginsPlainly (e : Shape) : Prop :=
  startsWith e.written.pieces "function" = true → e.written.pieces.head? = some (.keyword .function)

/-- No expression that is a statement begins with a longer name that only looks like the word
`function`. -/
def Plain (s : Shape) : Prop :=
  ∀ d ∈ s :: s.inside, d.kind = .expression → ∀ e ∈ d.children, e.BeginsPlainly

theorem Plain.inside {s d : Shape} (h : s.Plain) (hd : d ∈ s.inside) : d.Plain := by
  intro c hc
  refine h c (List.mem_cons_of_mem _ ?_)
  rcases List.mem_cons.mp hc with rfl | hc
  exacts [hd, inside_inside hd hc]

/-- An expression is never put in parentheses where any expression can stand. -/
theorem expression_commaLevel (s : Shape) : s.written.expression commaLevel = s.written.pieces := by
  rw [Written.expression, kind_written, if_neg]
  exact Nat.not_lt.mpr s.commaLevel_le_level

variable {s : Shape}

theorem frugal_plain {e : Shape} (he : e.Proper .expression) (hp : e.BeginsPlainly)
    (h : Frugal e.groups e.written.pieces) (constant : Bool) :
    Frugal (node .expression constant [e]).groups
      (layout .expression [e.written]) := by
  have hown : ownGroups .expression [e] = e.leads.toNat := rfl
  rw [groups_node, groupsAll_cons, groupsAll_nil, hown]
  have hlevel : Kind.expression.firstLevel = commaLevel := rfl
  rw [hlevel, groupsAt_commaLevel]
  have hend : Frugal 0 [.mark .semicolon] := .mark (by decide) .nil
  simp only [layout, expressionAt, List.getElem?_cons_zero, expression_commaLevel]
  split
  · rename_i hstart
    have hleads : e.leads = true := by
      rcases Bool.or_eq_true_iff.mp hstart with hfunction | hbrace
      · exact he.leads rfl (hp hfunction)
      · obtain ⟨k, rest, hpieces, -⟩ := he.opens
        have hcalm := h.calm
        rw [hpieces] at hbrace hcalm
        obtain rfl := brace_of_startsWith hcalm.1 hbrace
        exact he.leads rfl (by rw [hpieces]; rfl)
    rw [hleads]
    exact (h.parenthesized.append hend).mono (by rw [Bool.toNat_true]; omega)
  · exact (h.append hend).mono (by omega)

/-- A declarator is written with what all its texts need. -/
theorem frugal_declarator {d : Shape} (hd : d.Proper .declarator)
    (ih : ∀ c ∈ d.children, c.Proper .expression → Frugal c.groups c.written.pieces) :
    Frugal d.groups (declaratorPieces d.written) := by
  obtain ⟨x, constant, values, rfl, hx, hvalues⟩ := hd.declarator
  rcases hvalues with rfl | ⟨value, rfl, hv⟩
  · rw [groups_node, groupsAll_nil]
    simpa [declaratorPieces, Kind.name?] using (Frugal.nil.symbol hx).mono (Nat.zero_le _)
  · have hvalue := frugal_expression (ih value List.mem_cons_self hv) assignLevel
    rw [groups_node, groupsAll_cons, groupsAll_nil]
    simp only [declaratorPieces, kind_written, kind_node, Kind.name?, children_written,
      List.map_cons, List.map_nil]
    exact ((((hvalue.space).mark (by decide)).space).symbol hx).mono
      (Nat.le_of_eq (Nat.zero_add _).symm)

theorem frugal_declarations {ss : List Shape} (hs : ∀ d ∈ ss, d.Proper .declarator)
    (ih : ∀ d ∈ ss, ∀ c ∈ d.children, c.Proper .expression → Frugal c.groups c.written.pieces) :
    Frugal (ss.map groups).sum (declarationPieces (ss.map written)) := by
  have hlist : Frugal (ss.map groups).sum
      (Piece.comma.intercalate ((ss.map written).map declaratorPieces)) := by
    rw [List.map_map]
    exact .intercalate .comma fun d hd => frugal_declarator (hs d hd) (ih d hd)
  exact hlist.space.keyword .var

theorem frugal_jump (keyword : Keyword) {x : Option String} (hx : x.all isSymbol = true) :
    Frugal 0 (jumpPieces keyword x) := by
  have hend : Frugal 0 [.mark .semicolon] := .mark (by decide) .nil
  cases x with
  | none => exact hend.keyword keyword
  | some x => exact (hend.symbol hx).space.keyword keyword

theorem spares_clause (hs : s.Proper .clause) (ih : ∀ d ∈ s.inside, d.Spares) :
    Frugal s.groups s.written.statement := by
  have hbody : ∀ {body : Shape}, body ∈ s.children → body.Proper .block →
      Frugal body.groups (spacedStatements body.written.children) := by
    intro body hm hb
    obtain ⟨constant, ss, rfl, hss⟩ := hb.block
    rw [children_written, groups_loose rfl rfl]
    refine (frugal_spacedStatements fun s hs => ?_).mono (Nat.le_of_eq (Nat.zero_add _).symm)
    exact (ih s (inside_trans hm (inside_child (s := .node .block constant ss) hs))).statement
      (hss s hs)
  obtain ⟨constant, body, hb, ⟨test, rfl, ht⟩ | rfl⟩ := hs.clause
  · rw [statement_written rfl (by simp), groups_loose rfl rfl]
    have htest := (ih test (inside_child List.mem_cons_self)).expression ht
    have hstatements := hbody (show body ∈ _ by simp [children]) hb
    have hall := ((htest.append (hstatements.mark (m := .colon) (by decide))).space).keyword .case_
    refine Frugal.mono (by simpa [layout, expressionAt, expression_commaLevel] using hall) ?_
    simp [ownGroups]
  · rw [statement_written rfl (by simp), groups_loose rfl rfl]
    have hstatements := hbody (show body ∈ _ by simp [children]) hb
    have hall := (hstatements.mark (m := .colon) (by decide)).keyword .default_
    refine Frugal.mono (by simpa [layout] using hall) ?_
    simp [ownGroups]

theorem spares_statement (hs : s.Proper .statement) (hp : s.Plain) (ih : ∀ d ∈ s.inside, d.Spares) :
    Frugal s.groups s.written.statement := by
  have hoperand : ∀ {a : Shape}, a ∈ s.children → a.Proper .expression →
      Frugal a.groups (a.written.expression commaLevel) := by
    intro a ha hm
    rw [expression_commaLevel]
    exact (ih _ (inside_child ha)).expression hm
  have hheader : ∀ {a : Shape}, a ∈ s.children → a.Proper .expression →
      Frugal (a.groups + 1) (parenthesized (a.written.expression commaLevel)) := fun ha hm =>
    (hoperand ha hm).parenthesized
  have hblock : ∀ {a : Shape}, a ∈ s.children → a.Proper .block →
      Frugal a.groups a.written.statement := fun ha hm =>
    (ih _ (inside_child ha)).statement hm.statement
  have hend : Frugal 0 [.mark .semicolon] := .mark (by decide) .nil
  cases hs.statementForm with
  | block constant ss hss =>
    rw [statement_written rfl (by simp), groups_loose rfl rfl]
    have hlist := frugal_statements fun d hd => (ih d (inside_child hd)).statement (hss d hd)
    have hclose : Frugal 0 [.space, .mark .closeBrace] := .space (.mark (by decide) .nil)
    have hempty : Frugal 0 [.mark .openBrace, .mark .closeBrace] :=
      .mark (by decide) (.mark (by decide) .nil)
    have hall := (((hlist.append hclose).space).mark (m := .openBrace) (by decide))
    simp only [layout]
    split
    · exact hempty.mono (Nat.zero_le _)
    · exact hall.mono (Nat.le_of_eq (Nat.add_comm _ _))
  | expression constant e he =>
    rw [statement_written rfl (by simp)]
    refine frugal_plain he ?_ ((ih e (inside_child List.mem_cons_self)).expression he) constant
    exact hp _ List.mem_cons_self rfl e List.mem_cons_self
  | var constant d hd =>
    rw [statement_written rfl (by simp), groups_loose rfl rfl]
    have hdeclaration : Frugal ([d].map groups).sum (declarationPieces ([d].map written)) :=
      frugal_declarations (List.forall_mem_singleton.mpr hd)
        (List.forall_mem_singleton.mpr fun c hc hm => (ih c (inside_trans
          (s := .node .var constant [d]) List.mem_cons_self (inside_child hc))).expression hm)
    exact (hdeclaration.append hend).mono (Nat.le_of_eq (Nat.add_comm _ _))
  | if_ constant condition first hc hf =>
    rw [statement_written rfl (by simp), groups_loose rfl rfl]
    have hcondition := hheader (a := condition) (by simp [children]) hc
    have hfirst := hblock (a := first) (by simp [children]) hf
    have hall := ((hcondition.append hfirst.space).space).keyword .if_
    refine Frugal.mono (by simpa [layout, expressionAt, statementAt] using hall) ?_
    simp [ownGroups]
    omega
  | ifElse constant condition first second hc hf hsecond =>
    rw [statement_written rfl (by simp), groups_loose rfl rfl]
    have hcondition := hheader (a := condition) (by simp [children]) hc
    have hfirst := hblock (a := first) (by simp [children]) hf
    have hsecond := hblock (a := second) (by simp [children]) hsecond
    have hall := ((hcondition.append
      (hfirst.append (hsecond.space.keyword .else_).space).space).space).keyword .if_
    refine Frugal.mono (by simpa [layout, expressionAt, statementAt] using hall) ?_
    simp [ownGroups]
    omega
  | return_ constant =>
    rw [statement_written rfl (by simp), groups_node, groupsAll_nil]
    exact hend.keyword .return_
  | returnValue constant e he =>
    rw [statement_written rfl (by simp), groups_loose rfl rfl]
    have he' := hoperand (a := e) List.mem_cons_self he
    exact ((he'.append hend).space.keyword .return_).mono (by simp [ownGroups])
  | switch constant value ss hv hss =>
    rw [statement_written rfl (by simp), groups_loose rfl rfl]
    have hvalue := hheader (a := value) List.mem_cons_self hv
    have hclauses := frugal_spacedStatements fun d hd =>
      (ih d (inside_child (List.mem_cons_of_mem _ hd))).clause (hss d hd)
    have hclose : Frugal 0 [.space, .mark .closeBrace] := .space (.mark (by decide) .nil)
    have hall := ((hvalue.append
      (((hclauses.append hclose).mark (m := .openBrace) (by decide)).space)).space).keyword .switch
    refine Frugal.mono (by simpa [layout, expressionAt] using hall) ?_
    simp [ownGroups]
    omega
  | label x constant inner hx hlabelled =>
    rw [statement_written rfl (by simp), groups_loose rfl rfl]
    have hstatement := (ih inner (inside_child List.mem_cons_self)).statement hlabelled
    exact ((hstatement.space.mark (m := .colon) (by decide)).symbol hx).mono (by simp [ownGroups])
  | while_ constant condition body hc hb =>
    rw [statement_written rfl (by simp), groups_loose rfl rfl]
    have hcondition := hheader (a := condition) (by simp [children]) hc
    have hbody := hblock (a := body) (by simp [children]) hb
    have hall := ((hcondition.append hbody.space).space).keyword .while_
    refine Frugal.mono (by simpa [layout, expressionAt, statementAt] using hall) ?_
    simp [ownGroups]
    omega
  | doWhile constant body condition hb hc =>
    rw [statement_written rfl (by simp), groups_loose rfl rfl]
    have hcondition := hheader (a := condition) (by simp [children]) hc
    have hbody := hblock (a := body) (by simp [children]) hb
    have hall := ((hbody.append
      (((hcondition.append hend).space.keyword .while_).space)).space).keyword .do_
    refine Frugal.mono (by simpa [layout, expressionAt, statementAt] using hall) ?_
    simp [ownGroups]
    omega
  | for_ constant first condition update body hf hc hu hb =>
    rw [statement_written rfl (by simp), groups_loose rfl rfl]
    have hbody := hblock (a := body) (by simp [children]) hb
    have hpart : ∀ {a : Shape}, a ∈ (node .for_ constant [first, condition, update, body]).children →
        a.Proper .optional → Frugal a.groups (a.written.expression commaLevel) := by
      intro a ha hm
      rcases hm.optional with ⟨constant, rfl⟩ | he
      · exact Frugal.nil.mono (Nat.zero_le _)
      · exact hoperand ha he
    have hcondition := hpart (a := condition) (by simp [children]) hc
    have hupdate := hpart (a := update) (by simp [children]) hu
    have hinitial : Frugal first.groups (initialPieces first.written) := by
      rcases hf.initial with ⟨constant', rfl⟩ | ⟨constant', ss, rfl, -, hss⟩ | he
      · rw [written_node]
        exact Frugal.nil.mono (Nat.zero_le _)
      · rw [written_node, groups_loose rfl rfl]
        refine (frugal_declarations hss fun d hd c hc hm => (ih c ?_).expression hm).mono
          (Nat.le_of_eq (Nat.zero_add _).symm)
        exact inside_trans (c := .node .var constant' ss) (by simp [children])
          (inside_trans (c := d) hd (inside_child hc))
      · have hfirst := hoperand (a := first) (by simp [children]) he
        have hkind := he.isExpression
        obtain ⟨kind, constant', ss⟩ := first
        rw [written_node] at hfirst ⊢
        cases kind <;> first | exact hfirst | cases hkind
    have hsemicolon : Frugal 0 [.mark .semicolon, .space] := .mark (by decide) (.space .nil)
    have hparts := hinitial.append (hsemicolon.append (hcondition.append (hsemicolon.append hupdate)))
    have hall := ((hparts.parenthesized.append hbody.space).space).keyword .for_
    refine Frugal.mono (by simpa [layout_for, parenthesized] using hall) ?_
    simp [ownGroups]
    omega
  | @jump kind keyword label constant hk h =>
    cases kind with
    | break_ | continue_ =>
      obtain ⟨rfl, rfl⟩ := Prod.mk.inj (Option.some.inj hk)
      rw [statement_written rfl (by simp), groups_node, groupsAll_nil]
      exact frugal_jump _ h
    | _ => cases hk
  | throw constant e he =>
    rw [statement_written rfl (by simp), groups_loose rfl rfl]
    have he' := hoperand (a := e) List.mem_cons_self he
    exact ((he'.append hend).space.keyword .throw).mono (by simp [ownGroups])
  | empty constant =>
    rw [written_node, groups_node, groupsAll_nil]
    exact hend
  | function name params constant body h hb =>
    rw [written_node, groups_loose rfl rfl]
    exact (frugal_function h (hblock (a := body) List.mem_cons_self hb)).mono
      (Nat.add_le_add_left (Nat.le_add_right _ _) _)

/-- Every shape is written with no more parentheses than all its texts need. -/
theorem spares {s : Shape} (hp : s.Plain) : s.Spares := by
  induction s using induct_inside with
  | step s ih =>
    have hinside : ∀ d ∈ s.inside, d.Spares := fun d hd => ih d hd (hp.inside hd)
    exact ⟨fun hs => spares_expression hs hinside, fun hs => spares_statement hs hp hinside,
      fun hs => spares_clause hs hinside⟩

end Shape

end Hoist
