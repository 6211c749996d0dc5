import Hoist.Proofs.Spacing

namespace Hoist

/-- The text of an expression can stand before whatever ends an operand, and that of a statement
before anything. -/
structure Shape.Spaced (s : Shape) : Prop where
  expression : s.Made Kind.isPrinted .expression → OperandApart s.written.pieces
  statement : s.Made Kind.isPrinted .statement → ∀ cs, Apart s.written.statement cs
  clause : s.Made Kind.isPrinted .clause → ∀ cs, Apart s.written.statement cs

namespace Shape

variable {s : Shape} {cs : List Char}

theorem Spaced.operand (h : s.Spaced) (hs : s.Made Kind.isPrinted .expression) (level : Nat) :
    OperandApart (s.written.expression level) := by
  intro cs hcs
  unfold Written.expression
  split
  · exact apart_parenthesized (h.expression hs) cs
  · exact h.expression hs cs hcs

theorem apart_operands {ss : List Shape} (h : ∀ s ∈ ss, s.Spaced)
    (hs : ∀ s ∈ ss, s.Made Kind.isPrinted .expression) :
    OperandApart (joinedOperands (ss.map written)) := by
  refine OperandApart.commas fun ps hp => ?_
  simp only [List.map_map, List.mem_map] at hp
  obtain ⟨s, hm, rfl⟩ := hp
  exact (h s hm).operand (hs s hm) _

theorem operandApart_entry {x : String} {value : Shape} (h : value.Spaced)
    (hv : value.Made Kind.isPrinted .expression) :
    OperandApart (entryPieces (.key x) [value.written]) := by
  intro cs hcs
  have hvalue := h.operand hv assignLevel cs hcs
  have hrest : Apart ([.mark .colon, .space] ++ value.written.expression assignLevel) cs :=
    ⟨rfl, endsBefore_whole rfl _, hvalue⟩
  simp only [entryPieces]
  split
  · rename_i hname
    exact ⟨isSpelled_ofWord hname, endsBefore_mark (isOperandEnd_ofWord x) (m := .colon) (by decide) _,
      hrest⟩
  · exact ⟨rfl, rfl, hrest⟩

/-- A function can stand before anything. -/
theorem apart_function {name : Option String} {params : List String} {body : Shape}
    (h : (Kind.function name params).isLegible = true)
    (hb : ∀ cs, Apart body.written.statement cs) (cs : List Char) :
    Apart (functionPieces name params [body.written]) cs := by
  obtain ⟨hname, hparams⟩ := Bool.and_eq_true_iff.mp h
  have hsymbol : ∀ {x : String}, isSymbol x = true → OperandApart [.symbol x] := fun hx =>
    operandApart_token hx rfl
  let list := parenthesized (Piece.comma.intercalate (params.map fun p => [Piece.symbol p]))
  have hlist : ∀ ds, Apart list ds := apart_parenthesized (.commas fun ps hp => by
    obtain ⟨x, hx, rfl⟩ := List.mem_map.mp hp
    exact hsymbol (List.all_eq_true.mp hparams x hx))
  have hopen : ∀ ds, endsOperand (pieceChars list ++ ds) = true := fun ds =>
    endsOperand_mark (m := .openParen) (by decide) _
  have hrest : Apart (list ++ ([.space] ++ body.written.statement)) cs :=
    apart_append.mpr ⟨hlist _, hb cs⟩
  have hword : (TokenKind.keyword .function).endsBefore
      (pieceChars (list ++ ([.space] ++ body.written.statement)) ++ cs) = true := by
    rw [pieceChars_append, List.append_assoc]
    exact endsBefore_of_endsOperand rfl (hopen _)
  cases name with
  | none =>
    have hpieces : functionPieces none params [body.written] =
        .token (.keyword .function) :: (list ++ ([.space] ++ body.written.statement)) := by
      simp [functionPieces, list, statementAt, Piece.keyword]
    rw [hpieces]
    exact ⟨rfl, hword, hrest⟩
  | some n =>
    have hpieces : functionPieces (some n) params [body.written] = .token (.keyword .function) ::
        .space :: .token (.symbol n) :: (list ++ ([.space] ++ body.written.statement)) := by
      simp [functionPieces, list, statementAt, Piece.keyword, Piece.symbol]
    rw [hpieces]
    refine ⟨rfl, endsBefore_space _ _, hname, ?_, hrest⟩
    rw [pieceChars_append, List.append_assoc]
    exact endsBefore_of_endsOperand rfl (hopen _)

theorem spaced_expression {s : Shape} (ih : ∀ d ∈ s.inside, d.Spaced)
    (hs : s.Made Kind.isPrinted .expression) : OperandApart s.written.pieces := by
  have hspell : ∀ {k : Kind}, k.isPrinted = true → k.isLegible = true := fun h =>
    (Bool.and_eq_true_iff.mp h).1
  have hoperand : ∀ {a : Shape}, a ∈ s.children → a.Made Kind.isPrinted .expression → ∀ level,
      OperandApart (a.written.expression level) := fun ha hm level =>
    (ih _ (inside_child ha)).operand hm level
  cases hs.form with
  | name x constant hx =>
    rw [pieces_written]
    exact operandApart_token (hspell hx) rfl
  | @literal kind constant hk h =>
    rw [pieces_written]
    cases kind with
    | number value =>
      refine operandApart_token ?_ rfl
      cases value with
      | finite negative => exact hspell h
      | nan | infinite => cases (Bool.and_eq_true_iff.mp h).2
    | text | true_ | false_ | null | this_ => exact operandApart_token rfl rfl
    | _ => cases hk
  | array constant ss hss =>
    rw [pieces_written]
    intro cs hcs
    refine ⟨rfl, endsBefore_whole rfl _, ?_⟩
    exact (apart_operands (fun s hm => ih s (inside_child hm)) hss).mark (by decide) rfl trivial
  | object constant ss hss =>
    rw [pieces_written]
    intro cs hcs
    refine ⟨rfl, endsBefore_whole rfl _, OperandApart.mark (.commas ?_) (by decide) rfl trivial⟩
    intro ps hp
    simp only [List.map_map, List.mem_map, Function.comp, kind_written] at hp
    obtain ⟨s, hm, rfl⟩ := hp
    obtain ⟨x, constant', value, rfl, hv⟩ := (hss s hm).entry
    have hinside := inside_trans (s := .node .object constant ss) hm
      (inside_child (s := .node (.key x) constant' [value]) List.mem_cons_self)
    rw [children_written]
    exact operandApart_entry (ih value hinside) hv
  | function name params constant body h hb =>
    rw [pieces_written]
    intro cs _
    exact apart_function (hspell h) ((ih body (inside_child List.mem_cons_self)).statement hb.statement) cs
  | call constant callee ss hc hss =>
    rw [pieces_written]
    intro cs hcs
    exact (hoperand List.mem_cons_self hc _).mark (by decide) rfl (OperandApart.mark
      (apart_operands (fun s hm => ih s (inside_child (List.mem_cons_of_mem _ hm))) hss)
        (by decide) rfl trivial)
  | new constant callee ss hc hss =>
    rw [pieces_written]
    intro cs hcs
    have hcallee := hoperand (a := callee) List.mem_cons_self hc callLevel
    have hargs := apart_operands (fun s hm => ih s (inside_child (List.mem_cons_of_mem _ hm))) hss
    have hlist : ∀ ds, Apart (parenthesized (joinedOperands (ss.map written))) ds :=
      apart_parenthesized hargs
    refine ⟨rfl, endsBefore_space _ _, apart_append.mpr ⟨?_, hlist cs⟩⟩
    have hopen : endsOperand (pieceChars (parenthesized (joinedOperands (ss.map written))) ++ cs) =
        true := endsOperand_mark (m := .openParen) (by decide) _
    simp only [List.map_cons, List.head?_cons]
    split
    · exact apart_parenthesized hcallee _
    · exact hcallee _ hopen
  | property x constant object hx ho =>
    rw [pieces_written]
    intro cs hcs
    have hword : isNameLike x = true := hspell hx
    have hlast := operandApart_token (isSpelled_ofWord hword) (isOperandEnd_ofWord x) cs hcs
    refine apart_append.mpr ⟨hoperand List.mem_cons_self ho _ _ ?_, rfl, endsBefore_whole rfl _, hlast⟩
    rw [Piece.mark, Piece.word, pieceChars_token, pieceChars_token, spelling_ofWord, List.append_assoc,
      List.append_assoc]
    exact endsOperand_dot hword _
  | element constant object key ho hk =>
    rw [pieces_written]
    intro cs hcs
    have hkey := hoperand (a := key) (by simp [children]) hk commaLevel
    simp only [layout, List.append_assoc]
    exact (hoperand List.mem_cons_self ho _).mark (by decide) rfl (hkey.mark (by decide) rfl trivial)
  | @assignment kind constant target value hk h ht hv =>
    rw [pieces_written]
    have ht' := hoperand (a := target) List.mem_cons_self ht.expression_of_target stepLevel
    have hv' := hoperand (a := value) (by simp [children]) hv assignLevel
    cases kind with
    | assign => exact ht'.between (apart_mark_space _) hv'
    | assignOp op =>
      refine ht'.between (fun cs => ?_) hv'
      cases op <;> first | exact apart_mark_space _ _ | exact absurd (hspell h) (by decide)
    | _ => cases hk
  | conditional constant a b c ha hb hc =>
    rw [pieces_written]
    have ha' := hoperand (a := a) List.mem_cons_self ha orLevel
    have hb' := hoperand (a := b) (by simp [children]) hb assignLevel
    have hc' := hoperand (a := c) (by simp [children]) hc assignLevel
    have h := (ha'.between (apart_mark_space .question) hb').between (apart_mark_space .colon) hc'
    simpa [layout, Piece.mark, expressionAt] using h
  | @pair kind constant a b hk ha hb =>
    rw [pieces_written]
    have hleft : ∀ level, OperandApart (a.written.expression level) :=
      hoperand (a := a) List.mem_cons_self ha
    have hright : ∀ level, OperandApart (b.written.expression level) :=
      hoperand (a := b) (by simp [children]) hb
    cases kind with
    | comma =>
      intro cs hcs
      simp only [layout, List.append_assoc]
      exact (hleft _).mark (by decide) rfl (hright _ _ hcs)
    | or_ | and_ | binary => exact (hleft _).between (apart_mark_space _) (hright _)
    | _ => cases hk
  | unary op constant a ha =>
    rw [pieces_written]
    intro cs hcs
    have ha' := hoperand (a := a) List.mem_cons_self ha unaryLevel cs hcs
    have hopens := opens_expression ha.opens unaryLevel
    cases op with
    | not_ => exact ⟨rfl, hopens.endsBefore ha' (by simp [Mark.extendedBy]), ha'⟩
    | negate =>
      simp only [layout, unaryPieces]
      split
      · exact ⟨rfl, endsBefore_space _ _, ha'⟩
      · rename_i hsign
        refine ⟨rfl, hopens.endsBefore ha' fun d ds hd he => ?_, ha'⟩
        refine (by simpa [Mark.extendedBy] using he : d = '-' ∨ d = '=').resolve_left ?_
        rintro rfl
        exact hsign (startsWith_of_chars hd)
    | plus =>
      simp only [layout, unaryPieces]
      split
      · exact ⟨rfl, endsBefore_space _ _, ha'⟩
      · rename_i hsign
        refine ⟨rfl, hopens.endsBefore ha' fun d ds hd he => ?_, ha'⟩
        refine (by simpa [Mark.extendedBy] using he : d = '+' ∨ d = '=').resolve_left ?_
        rintro rfl
        exact hsign (startsWith_of_chars hd)
    | typeof | void | delete => exact ⟨rfl, endsBefore_space _ _, ha'⟩
  | increment isDecrement isPostfix constant a ha =>
    rw [pieces_written]
    intro cs hcs
    have ha' := hoperand (a := a) List.mem_cons_self ha.expression_of_target stepLevel
    cases isPostfix with
    | false => cases isDecrement <;> exact ⟨rfl, endsBefore_whole rfl _, ha' cs hcs⟩
    | true => cases isDecrement <;> exact ha'.mark (by decide) rfl trivial

/-- A declarator can stand before whatever ends an operand. -/
theorem operandApart_declarator {s : Shape} (ih : ∀ d ∈ s.children, d.Spaced)
    (hs : s.Made Kind.isPrinted .declarator) : OperandApart (declaratorPieces s.written) := by
  obtain ⟨x, constant, values, rfl, hx, hvalues⟩ := hs.declarator
  have hname : isSymbol x = true := (Bool.and_eq_true_iff.mp hx).1
  rcases hvalues with rfl | ⟨value, rfl, hv⟩
  · simpa [declaratorPieces, Kind.name?, Piece.symbol] using
      operandApart_token (k := .symbol x) hname rfl
  · intro cs hcs
    have hvalue := (ih value List.mem_cons_self).operand hv assignLevel cs hcs
    simp only [declaratorPieces, kind_written, kind_node, Kind.name?, children_written,
      List.map_cons, List.map_nil]
    exact ⟨hname, endsBefore_space _ _, rfl, endsBefore_space _ _, hvalue⟩

theorem operandApart_declaration {ss : List Shape} (ih : ∀ s ∈ ss, ∀ d ∈ s.children, d.Spaced)
    (hs : ∀ s ∈ ss, s.Made Kind.isPrinted .declarator) :
    OperandApart (declarationPieces (ss.map written)) := by
  intro cs hcs
  refine ⟨rfl, endsBefore_space _ _, OperandApart.commas (fun ps hp => ?_) cs hcs⟩
  simp only [List.map_map, List.mem_map, Function.comp] at hp
  obtain ⟨s, hm, rfl⟩ := hp
  exact operandApart_declarator (ih s hm) (hs s hm)

theorem apart_spacedStatements {ss : List Shape} (ih : ∀ s ∈ ss, ∀ cs, Apart s.written.statement cs)
    (cs : List Char) : Apart (spacedStatements (ss.map written)) cs := by
  induction ss with
  | nil => trivial
  | cons s ss ihs =>
    rw [spacedStatements, List.map_cons, List.flatMap_cons, apart_append]
    exact ⟨ih s List.mem_cons_self _, ihs fun s hm => ih s (List.mem_cons_of_mem _ hm)⟩

/-- A jump can stand before anything. -/
theorem apart_jump {x : Option String} (hx : x.all isSymbol = true) (keyword : Keyword)
    (cs : List Char) : Apart (jumpPieces keyword x) cs := by
  cases x with
  | none => simp [jumpPieces, Piece.keyword, Piece.mark, Mark.isWhole]
  | some x =>
    have hname : isSymbol x = true := hx
    simp [jumpPieces, Piece.keyword, Piece.mark, Piece.symbol, Mark.isWhole, TokenKind.isSpelled, hname]

/-- A clause can stand before anything. -/
theorem spaced_clause {s : Shape} (ih : ∀ d ∈ s.inside, d.Spaced)
    (hs : s.Made Kind.isPrinted .clause) (cs : List Char) : Apart s.written.statement cs := by
  have hbody : ∀ {body : Shape}, body ∈ s.children → body.Made Kind.isPrinted .block → ∀ ds,
      Apart (spacedStatements body.written.children) ds := by
    intro body hm hb
    obtain ⟨constant, ss, rfl, hss⟩ := hb.block
    rw [children_written]
    exact apart_spacedStatements fun s hs =>
      (ih s (inside_trans hm (inside_child (s := .node .block constant ss) hs))).statement (hss s hs)
  obtain ⟨constant, body, hb, ⟨test, rfl, ht⟩ | rfl⟩ := hs.clause
  · rw [statement_written rfl (by simp)]
    have htest := (ih test (inside_child List.mem_cons_self)).operand ht commaLevel
    have hstatements := hbody (by simp [children]) hb
    refine ⟨rfl, endsBefore_space _ _, ?_⟩
    simpa [layout, expressionAt] using htest.mark (by decide) rfl (hstatements cs)
  · rw [statement_written rfl (by simp)]
    have hstatements := hbody (by simp [children]) hb
    simp [layout, Piece.keyword, Piece.mark, Mark.isWhole, hstatements]

theorem spaced_statement {s : Shape} (ih : ∀ d ∈ s.inside, d.Spaced)
    (hs : s.Made Kind.isPrinted .statement) (cs : List Char) : Apart s.written.statement cs := by
  have hoperand : ∀ {a : Shape}, a ∈ s.children → a.Made Kind.isPrinted .expression → ∀ level,
      OperandApart (a.written.expression level) := fun ha hm level =>
    (ih _ (inside_child ha)).operand hm level
  have hheader : ∀ {a : Shape}, a ∈ s.children → a.Made Kind.isPrinted .expression → ∀ ds,
      Apart (parenthesized (a.written.expression commaLevel)) ds := fun ha hm =>
    apart_parenthesized (hoperand ha hm _)
  have hblock : ∀ {a : Shape}, a ∈ s.children → a.Made Kind.isPrinted .block → ∀ ds,
      Apart a.written.statement ds := fun ha hm =>
    (ih _ (inside_child ha)).statement hm.statement
  cases hs.statementForm with
  | block constant ss hss =>
    rw [statement_written rfl (by simp)]
    have hinside : ∀ ds, Apart (joinedStatements (ss.map written)) ds := fun ds =>
      apart_spaces fun ps hp => by
        simp only [List.map_map, List.mem_map, Function.comp] at hp
        obtain ⟨s, hm, rfl⟩ := hp
        exact (ih s (inside_child hm)).statement (hss s hm)
    simp only [layout]
    split
    · simp [Piece.mark, Mark.isWhole]
    · simp [Piece.mark, Mark.isWhole, hinside]
  | expression constant e he =>
    rw [statement_written rfl (by simp)]
    have he' := hoperand (a := e) List.mem_cons_self he commaLevel
    simp only [layout]
    split
    · simpa [Piece.mark, Mark.isWhole, expressionAt] using apart_parenthesized he' _
    · exact he'.mark (by decide) rfl trivial
  | var constant d hd =>
    rw [statement_written rfl (by simp)]
    have hdeclaration : OperandApart (declarationPieces [d.written]) :=
      operandApart_declaration (fun s hm e he => by
        obtain rfl := List.mem_singleton.mp hm
        exact ih e (inside_trans (s := .node .var constant [s]) List.mem_cons_self
          (inside_child he))) (List.forall_mem_singleton.mpr hd)
    exact hdeclaration.mark (by decide) rfl trivial
  | if_ constant condition first hc hf =>
    rw [statement_written rfl (by simp)]
    have hcondition := hheader (a := condition) (by simp [children]) hc
    have hfirst := hblock (a := first) (by simp [children]) hf
    simp [layout, expressionAt, statementAt, Piece.keyword, hcondition, hfirst]
  | ifElse constant condition first second hc hf hsecond =>
    rw [statement_written rfl (by simp)]
    have hcondition := hheader (a := condition) (by simp [children]) hc
    have hfirst := hblock (a := first) (by simp [children]) hf
    have hsecond := hblock (a := second) (by simp [children]) hsecond
    simp [layout, expressionAt, statementAt, Piece.keyword, hcondition, hfirst, hsecond]
  | return_ constant =>
    rw [statement_written rfl (by simp)]
    simp [layout, Piece.keyword, Piece.mark, Mark.isWhole]
  | returnValue constant e he =>
    rw [statement_written rfl (by simp)]
    have he' := hoperand (a := e) List.mem_cons_self he commaLevel
    exact ⟨rfl, endsBefore_space _ _, he'.mark (by decide) rfl trivial⟩
  | switch constant value ss hv hss =>
    rw [statement_written rfl (by simp)]
    have hvalue := hheader (a := value) List.mem_cons_self hv
    have hclauses : ∀ ds, Apart (spacedStatements (ss.map written)) ds :=
      apart_spacedStatements fun s hm =>
        (ih s (inside_child (List.mem_cons_of_mem _ hm))).clause (hss s hm)
    simp [layout, expressionAt, Piece.keyword, Piece.mark, Mark.isWhole, hvalue, hclauses]
  | label x constant s hx hlabelled =>
    rw [statement_written rfl (by simp)]
    have hname : isSymbol x = true := (Bool.and_eq_true_iff.mp hx).1
    have hstatement := (ih s (inside_child List.mem_cons_self)).statement hlabelled
    simp [layout, statementAt, Piece.mark, Piece.symbol, TokenKind.isSpelled, hname, hstatement]
  | while_ constant condition body hc hb =>
    rw [statement_written rfl (by simp)]
    have hcondition := hheader (a := condition) (by simp [children]) hc
    have hbody := hblock (a := body) (by simp [children]) hb
    simp [layout, expressionAt, statementAt, Piece.keyword, hcondition, hbody]
  | doWhile constant body condition hb hc =>
    rw [statement_written rfl (by simp)]
    have hcondition := hheader (a := condition) (by simp [children]) hc
    have hbody := hblock (a := body) (by simp [children]) hb
    simp [layout, expressionAt, statementAt, Piece.keyword, Piece.mark, Mark.isWhole, hcondition, hbody]
  | for_ constant first condition update body hf hc hu hb =>
    rw [statement_written rfl (by simp)]
    have hbody := hblock (a := body) (by simp [children]) hb
    have hpart : ∀ {a : Shape}, a ∈ (node .for_ constant [first, condition, update, body]).children →
        a.Made Kind.isPrinted .optional → OperandApart (a.written.expression commaLevel) := by
      intro a ha hm
      rcases hm.optional with ⟨constant, rfl⟩ | he
      · exact fun _ _ => trivial
      · exact hoperand ha he _
    have hcondition := hpart (a := condition) (by simp [children]) hc
    have hupdate := hpart (a := update) (by simp [children]) hu
    have hinitial : OperandApart (initialPieces first.written) := by
      rcases hf.initial with ⟨constant', rfl⟩ | ⟨constant', ss, rfl, -, hss⟩ | he
      · rw [written_node]
        exact fun _ _ => trivial
      · rw [written_node]
        refine operandApart_declaration (fun s hm d hd => ih d ?_) hss
        exact inside_trans (c := .node .var constant' ss) (by simp [children])
          (inside_trans (c := s) hm (inside_child hd))
      · have hfirst := hoperand (a := first) (by simp [children]) he commaLevel
        have hkind := he.isExpression
        obtain ⟨kind, constant', ss⟩ := first
        rw [written_node] at hfirst ⊢
        cases kind <;> first | exact hfirst | cases hkind
    rw [List.map_cons, List.map_cons, List.map_cons, List.map_cons, List.map_nil, layout_for]
    simp only [List.append_assoc]
    refine ⟨rfl, endsBefore_space _ _, rfl, endsBefore_whole rfl _, ?_⟩
    refine hinitial.mark (by decide) rfl (apart_space.mpr ?_)
    exact hcondition.mark (by decide) rfl (apart_space.mpr (hupdate.mark (by decide) rfl
      (apart_space.mpr (hbody cs))))
  | @jump kind keyword label constant hk h =>
    have hlegible := (Bool.and_eq_true_iff.mp h).1
    cases kind with
    | break_ | continue_ =>
      obtain ⟨rfl, rfl⟩ := Prod.mk.inj (Option.some.inj hk)
      rw [statement_written rfl (by simp)]
      exact apart_jump hlegible _ _
    | _ => cases hk
  | throw constant e he =>
    rw [statement_written rfl (by simp)]
    have he' := hoperand (a := e) List.mem_cons_self he commaLevel
    exact ⟨rfl, endsBefore_space _ _, he'.mark (by decide) rfl trivial⟩
  | empty constant =>
    rw [written_node]
    exact ⟨rfl, endsBefore_whole rfl _, trivial⟩
  | function name params constant body h hb =>
    rw [written_node]
    exact apart_function (Bool.and_eq_true_iff.mp h).1 (hblock (a := body) List.mem_cons_self hb) cs

/-- The text of a program is spaced so that its tokens can be told apart. -/
theorem spaced (s : Shape) : s.Spaced :=
  induct_inside (fun _ ih => ⟨spaced_expression ih, spaced_statement ih, spaced_clause ih⟩) s

end Shape

end Hoist
