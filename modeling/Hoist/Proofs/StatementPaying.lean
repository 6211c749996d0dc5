import Hoist.Proofs.ExpressionPaying
import Hoist.Proofs.StatementData

namespace Hoist

open Shape (held chained)

/-- Declarations need no more than their declarators. -/
theorem allCost_declarations {ds : List Draft} {n : Nat} (h : Draft.AllCost commaLevel ds n) :
    Draft.AllCost commaLevel [.declarations ds] n := by
  rw [Draft.AllCost] at h ⊢
  rw [Draft.allShapes, Draft.shapes, Draft.allShapes, List.append_nil]
  refine Nat.le_trans (Nat.le_of_eq ?_) h
  induction Draft.allShapes ds with
  | nil => rfl
  | cons s ss ih =>
    rw [List.map_cons, Shape.groupsAll_cons, Shape.groupsAll_cons, ih, Shape.groupsAt_commaLevel,
      Shape.groups_node, Shape.groupsAll_cons, Shape.groupsAll_nil]
    have hown : Shape.ownGroups .var [s] = 0 := rfl
    have hfirst : Kind.var.firstLevel = commaLevel := rfl
    simp only [hown, hfirst, Shape.groupsAt_commaLevel]
    omega

/-- Exactly one statement needs no more than several. -/
theorem allCost_single {d : Draft} {n : Nat} (start : Span) (h : Draft.AllCost commaLevel [d] n) :
    Draft.AllCost commaLevel [single start d] n := by
  unfold single
  split
  · exact h
  · rename_i ds _
    have hblock : (Draft.node .block start [.declarations ds] []).Costs (fun _ => false) n :=
      Draft.costs_before (fun _ => rfl) rfl rfl h
    exact hblock.statement
  · exact h

section Statements

variable {ts : List Token}

theorem statements_pays (ih : Paid ts.length) (ends : TokenKind → Bool)
    (hstatement : Pays (fun d => Draft.AllCost commaLevel [d]) ts (statement ts)) :
    Pays (Draft.AllCost commaLevel) ts (statements ends ts) := by
  unfold statements
  split
  · exact .pure Draft.allCost_nil (List.suffix_refl _)
  · split
    · exact .pure Draft.allCost_nil (List.suffix_refl _)
    · refine hstatement.bind fun first rest h m hf => ?_
      exact (ih.statements (by omega)).bind fun others _ _ k ho =>
        .pure (hf.cons ho) (List.suffix_refl _)

theorem block_pays (ih : Paid ts.length) : Pays (Draft.Costs fun _ => false) ts (block ts) := by
  unfold block
  refine (expect_pays _ ts).next fun start rest₁ h₁ => ?_
  refine (ih.statements (by omega)).bind fun inside rest₂ h₂ m hi => ?_
  exact (expect_pays _ rest₂).next fun _ _ _ =>
    .pure (Draft.costs_after (fun _ => rfl) rfl rfl hi) (List.suffix_refl _)

theorem body_pays (ih : Paid ts.length)
    (hstatement : Pays (fun d => Draft.AllCost commaLevel [d]) ts (statement ts)) :
    Pays (Draft.Costs fun _ => false) ts (body ts) := by
  unfold body
  split
  · exact block_pays ih
  · exact hstatement.bind fun inside rest h m hi =>
      .pure (Draft.costs_before (fun _ => rfl) rfl rfl hi) (List.suffix_refl _)
  · exact .error

/-- An expression in parentheses has paid for these. -/
theorem header_pays (ih : Paid ts.length) : Pays (Draft.Costs fun _ => true) ts (header ts) := by
  unfold header
  refine .expected fun span rest₁ h₁ => .opened (expression_refuses rfl).bind ?_
  refine (ih.expression (by omega)).bind fun value rest₂ h₂ m hv => ?_
  exact (expect_pays _ rest₂).next fun _ _ _ => .pure hv.enclosed (List.suffix_refl _)

theorem declarator_pays (ih : Paid ts.length) :
    Pays (Draft.Costs fun _ => false) ts (declarator ts) := by
  unfold declarator
  refine (expectName_pays ts).next fun name rest₁ h₁ => ?_
  dsimp only
  cases he : eat? (.mark .assign) rest₁ with
  | none => exact .pure (Draft.costs_leaf fun _ => rfl) (List.suffix_refl _)
  | some p =>
    obtain ⟨_, more, h₂⟩ := p
    refine .of_suffix ((ih.assignment (by omega)).bind fun value rest h₃ m hv =>
      .pure (Draft.costs_last (fun _ => rfl) hv) (List.suffix_refl _)) (suffix_of_take? he).1

theorem declarators_pays (ih : Paid ts.length) :
    Pays (Draft.AllCost commaLevel) ts (declarators ts) := by
  unfold declarators
  refine (declarator_pays ih).bind fun first rest₁ h₁ m hf => ?_
  dsimp only
  cases he : eat? (.mark .comma) rest₁ with
  | none => exact .pure hf.statement (List.suffix_refl _)
  | some p =>
    obtain ⟨_, more, h₂⟩ := p
    exact .of_suffix ((ih.declarators (by omega)).bind fun others rest h₃ k ho =>
      .pure (hf.statement.cons ho) (List.suffix_refl _)) (suffix_of_take? he).1

theorem initializer_pays (ih : Paid ts.length) (start : Span) :
    Pays (Draft.Costs fun _ => false) ts (initializer start ts) := by
  unfold initializer
  split
  · exact .pure (Draft.costs_leaf fun _ => rfl) (List.suffix_cons _ _)
  · rename_i more
    change Paid (more.length + 1) at ih
    refine .of_suffix ((ih.declarators (by omega)).bind fun names rest₁ h₁ m hn => ?_)
      (List.suffix_cons _ _)
    exact (expect_pays _ rest₁).next fun _ _ _ =>
      .pure (Draft.costs_before (fun _ => rfl) rfl rfl hn) (List.suffix_refl _)
  · refine (expression_pays ih).bind fun value rest₁ h₁ m hv => ?_
    exact (expect_pays _ rest₁).next fun _ _ _ => .pure (hv.inside) (List.suffix_refl _)

theorem optional_pays (ih : Paid ts.length) (start : Span) (close : Mark) :
    Pays (Draft.Costs fun _ => false) ts (optional start close ts) := by
  unfold optional
  cases he : eat? (.mark close) ts with
  | some p => exact .pure (Draft.costs_leaf fun _ => rfl) (suffix_of_take? he).1
  | none =>
    refine (expression_pays ih).bind fun value rest₁ h₁ m hv => ?_
    exact (expect_pays _ rest₁).next fun _ _ _ => .pure (hv.inside) (List.suffix_refl _)

theorem clauses_pays (ih : Paid ts.length) : Pays (Draft.AllCost commaLevel) ts (clauses ts) := by
  have hblock : ∀ (start : Span) {inside : List Draft} {n : Nat}, Draft.AllCost commaLevel inside n →
      Draft.AllCost commaLevel [.node .block start [] inside] n := by
    intro start inside n hi
    have hnode : (Draft.node .block start [] inside).Costs (fun _ => false) n :=
      Draft.costs_after (fun _ => rfl) rfl rfl hi
    exact hnode.statement
  unfold clauses
  split
  · rename_i start more
    change Paid (more.length + 1) at ih
    refine .of_suffix ((ih.expression (by omega)).bind fun test rest₁ h₁ m ht => ?_)
      (List.suffix_cons _ _)
    refine (expect_pays _ rest₁).next fun _ rest₂ h₂ => ?_
    refine (ih.statements (by omega)).bind fun inside rest₃ h₃ k hi => ?_
    refine (ih.clauses (by omega)).bind fun others _ _ j ho => .pure ?_ (List.suffix_refl _)
    have hclause : (Draft.node .case_ start [test, .node .block start [] inside] []).Costs
        (fun _ => false) (m + k) :=
      Draft.costs_before (fun _ => rfl) rfl rfl (ht.statement.cons (hblock start hi))
    exact (hclause.statement.cons ho).mono (by omega)
  · rename_i start more
    change Paid (more.length + 1) at ih
    refine .of_suffix ((expect_pays _ more).next fun _ rest₁ h₁ => ?_) (List.suffix_cons _ _)
    refine (ih.statements (by omega)).bind fun inside rest₂ h₂ k hi => ?_
    refine (ih.clauses (by omega)).bind fun others _ _ j ho => .pure ?_ (List.suffix_refl _)
    have hclause : (Draft.node .default_ start [.node .block start [] inside] []).Costs
        (fun _ => false) k :=
      Draft.costs_before (fun _ => rfl) rfl rfl (hblock start hi)
    exact hclause.statement.cons ho
  · exact .pure Draft.allCost_nil (List.suffix_cons _ _)
  · exact .error

/-- A statement that begins with neither a function nor a block is an expression in parentheses
where these are needed to tell it from one. -/
theorem costs_expression {value : Draft} {span : Span} {n : Nat}
    (h : value.Costs (held commaLevel false) n) :
    (Draft.node .expression span [value] []).Costs (fun _ => false) n := by
  obtain ⟨s, hs, hn⟩ := h
  refine ⟨.node .expression Kind.expression.isConstant [s], by
    simp [Draft.shapes, Draft.allShapes, hs], ?_⟩
  have hown : Shape.ownGroups .expression [s] = s.leads.toNat := rfl
  have hfirst : Kind.expression.firstLevel = commaLevel := rfl
  rw [held, Shape.level_lt_commaLevel] at hn
  simp only [Bool.false_or, Bool.not_false, Bool.true_and] at hn
  rw [Shape.groups_node, Shape.groupsAll_cons, Shape.groupsAll_nil, hown, hfirst,
    Shape.groupsAt_commaLevel, Bool.toNat_false]
  omega

/-- An initializer does not begin with a closing parenthesis. -/
theorem initializer_refuses {start : Span} :
    Refuses (.mark .closeParen) ts (initializer start ts) := by
  unfold initializer
  split
  · rintro ⟨⟩
  · rintro ⟨⟩
  · exact (expression_refuses rfl).bind

theorem statement_pays (ih : Paid ts.length) :
    Pays (fun d => Draft.AllCost commaLevel [d]) ts (statement ts) := by
  unfold statement
  split
  · exact (block_pays ih).imp fun _ _ => Draft.Costs.statement
  · rename_i more
    change Paid (more.length + 1) at ih
    refine .of_suffix ((ih.declarators (by omega)).bind fun names rest₁ h₁ m hn => ?_)
      (List.suffix_cons _ _)
    exact (statementEnd_pays rest₁).next fun _ _ _ =>
      .pure (allCost_declarations hn) (List.suffix_refl _)
  · rename_i start more
    change Paid (more.length + 1) at ih
    refine .of_suffix ((ih.header (by omega)).bind fun condition rest₁ h₁ m hc => ?_)
      (List.suffix_cons _ _)
    obtain ⟨m, rfl, hpaid⟩ := hc.paid
    refine (ih.body (by omega)).bind fun first rest₂ h₂ k hf => ?_
    have hnode : ∀ {after : List Draft} {j : Nat}, Draft.AllCost commaLevel after j →
        (Draft.node .if_ start [condition, first] after).Costs (fun _ => false)
          (1 + (m + k) + j) :=
      Draft.costs_uniform (fun _ => rfl) rfl rfl (hpaid.cons hf.statement)
    dsimp only
    cases he : eat? (.keyword .else_) rest₂ with
    | none =>
      exact .pure ((hnode Draft.allCost_nil).statement.mono (by omega)) (List.suffix_refl _)
    | some p =>
      obtain ⟨_, more', h₃⟩ := p
      exact .of_suffix ((ih.body (by omega)).bind fun second rest h₄ j hs =>
        .pure ((hnode hs.statement).statement.mono (by omega)) (List.suffix_refl _))
        (suffix_of_take? he).1
  · rename_i start more
    change Paid (more.length + 1) at ih
    refine .of_suffix ((ih.header (by omega)).bind fun condition rest₁ h₁ m hc => ?_)
      (List.suffix_cons _ _)
    obtain ⟨m, rfl, hpaid⟩ := hc.paid
    refine (ih.body (by omega)).bind fun inside rest₂ h₂ k hi => .pure ?_ (List.suffix_refl _)
    have hnode : (Draft.node .while_ start [condition, inside] []).Costs (fun _ => false)
        (1 + (m + k) + 0) :=
      Draft.costs_uniform (fun _ => rfl) rfl rfl (hpaid.cons hi.statement) Draft.allCost_nil
    exact hnode.statement.mono (by omega)
  · rename_i start more
    change Paid (more.length + 1) at ih
    refine .of_suffix ((ih.body (by omega)).bind fun inside rest₁ h₁ m hi => ?_)
      (List.suffix_cons _ _)
    refine (expect_pays _ rest₁).next fun _ rest₂ h₂ => ?_
    refine (ih.header (by omega)).bind fun condition rest₃ h₃ k hc => ?_
    obtain ⟨k, rfl, hpaid⟩ := hc.paid
    refine (statementEnd_pays rest₃).next fun _ _ _ => .pure ?_ (List.suffix_refl _)
    have hnode : (Draft.node .doWhile start [inside, condition] []).Costs (fun _ => false)
        (1 + (m + k) + 0) :=
      Draft.costs_uniform (fun _ => rfl) rfl rfl (hi.statement.cons hpaid) Draft.allCost_nil
    exact hnode.statement.mono (by omega)
  · rename_i start more
    change Paid (more.length + 1) at ih
    refine .of_suffix (.expected fun span rest₁ h₁ => .opened (initializer_refuses).bind ?_)
      (List.suffix_cons _ _)
    refine (ih.initializer (by omega)).bind fun first rest₂ h₂ m hf => ?_
    refine (ih.optional (by omega)).bind fun condition rest₃ h₃ k hc => ?_
    refine (ih.optional (by omega)).bind fun update rest₄ h₄ j hu => ?_
    refine (ih.body (by omega)).bind fun inside rest₅ h₅ i hi => .pure ?_ (List.suffix_refl _)
    have hnode : (Draft.node .for_ start [first, condition, update, inside] []).Costs
        (fun _ => false) (1 + (m + (k + (j + i))) + 0) :=
      Draft.costs_uniform (fun _ => rfl) rfl rfl
        (hf.statement.cons (hc.statement.cons (hu.statement.cons hi.statement))) Draft.allCost_nil
    exact hnode.statement.mono (by omega)
  · rename_i start more
    change Paid (more.length + 1) at ih
    refine .of_suffix ((ih.header (by omega)).bind fun value rest₁ h₁ m hv => ?_)
      (List.suffix_cons _ _)
    obtain ⟨m, rfl, hpaid⟩ := hv.paid
    refine (expect_pays _ rest₁).next fun _ rest₂ h₂ => ?_
    refine (ih.clauses (by omega)).bind fun cases rest₃ h₃ k hc => .pure ?_ (List.suffix_refl _)
    have hnode : (Draft.node .switch start [value] cases).Costs (fun _ => false) (1 + m + k) :=
      Draft.costs_uniform (fun _ => rfl) rfl rfl hpaid hc
    exact hnode.statement.mono (by omega)
  · rename_i start more
    change Paid (more.length + 1) at ih
    split
    · exact .of_suffix ((statementEnd_pays more).next fun _ _ _ =>
        .pure (Draft.costs_leaf fun _ => rfl).statement (List.suffix_refl _)) (List.suffix_cons _ _)
    · refine .of_suffix ((ih.expression (by omega)).bind fun value rest₁ h₁ m hv => ?_)
        (List.suffix_cons _ _)
      exact (statementEnd_pays rest₁).next fun _ _ _ =>
        .pure (Draft.Costs.statement (Draft.costs_after (fun _ => rfl) rfl rfl hv.statement))
          (List.suffix_refl _)
  · rename_i start more
    refine .of_suffix ((optionalName_pays more).next fun label rest₁ h₁ => ?_)
      (List.suffix_cons _ _)
    exact (statementEnd_pays rest₁).next fun _ _ _ =>
      .pure (Draft.costs_leaf fun _ => rfl).statement (List.suffix_refl _)
  · rename_i start more
    refine .of_suffix ((optionalName_pays more).next fun label rest₁ h₁ => ?_)
      (List.suffix_cons _ _)
    exact (statementEnd_pays rest₁).next fun _ _ _ =>
      .pure (Draft.costs_leaf fun _ => rfl).statement (List.suffix_refl _)
  · rename_i start more
    change Paid (more.length + 1) at ih
    refine .of_suffix ((ih.expression (by omega)).bind fun value rest₁ h₁ m hv => ?_)
      (List.suffix_cons _ _)
    exact (statementEnd_pays rest₁).next fun _ _ _ =>
      .pure (Draft.Costs.statement (Draft.costs_before (fun _ => rfl) rfl rfl hv.statement))
        (List.suffix_refl _)
  · rename_i start more
    change Paid (more.length + 1) at ih
    exact .of_suffix ((ih.functionTail (by omega)).bind fun value rest h m hv =>
      .pure hv.statement (List.suffix_refl _)) (List.suffix_cons _ _)
  · exact .pure (Draft.costs_leaf fun _ => rfl).statement (List.suffix_cons _ _)
  · rename_i name start _ t more
    change Paid (more.length + 1 + 1 + 1) at ih
    have hlength : (t :: more).length < more.length + 1 + 1 + 1 := by
      rw [List.length_cons]
      omega
    refine .of_suffix ((ih.statement hlength).bind fun inside rest h m hi => .pure ?_
      (List.suffix_refl _)) ((List.suffix_cons _ _).trans (List.suffix_cons _ _))
    exact Draft.Costs.statement (Draft.costs_before (fun _ => rfl) rfl rfl (allCost_single _ hi))
  · exact .error
  · rename_i t more hbrace _ _ _ _ _ _ _ _ _ _ hfunction _ _ _
    have hleading : leading (t :: more) = false := by
      obtain ⟨k, span⟩ := t
      have hb : k ≠ .mark .openBrace := fun hk => hbrace span (by rw [hk])
      have hf : k ≠ .keyword .function := fun hk => hfunction span (by rw [hk])
      simp [leading, TokenKind.isLeading, hb, hf]
    refine (expression_pays ih).bind fun value rest₁ h₁ m hv => ?_
    rw [hleading] at hv
    exact (statementEnd_pays rest₁).next fun _ _ _ =>
      .pure (costs_expression hv).statement (List.suffix_refl _)
  · exact .error

end Statements

/-- What is read from runs of tokens of any length costs no more parentheses than are opened. -/
theorem paid (n : Nat) : Paid n := by
  induction n using Nat.strongRecOn with
  | _ n ih =>
    exact {
      expression := fun h => expression_pays (ih _ h)
      commaTail := fun h hl => commaTail_pays (ih _ h) hl
      assignment := fun h => assignment_pays (ih _ h)
      orTail := fun h hl => orTail_pays (ih _ h) hl
      conjunction := fun h => conjunction_pays (ih _ h)
      andTail := fun h hl => andTail_pays (ih _ h) hl
      operation := fun h hp hplace => operation_pays (ih _ h) hp hplace
      operationTail := fun h hb hplace hnext hl => operationTail_pays (ih _ h) hb hplace hnext hl
      unary := fun h => unary_pays (ih _ h)
      accessTail := fun h hl => accessTail_pays (ih _ h) hl
      operand := fun h => operand_pays (ih _ h)
      items := fun h => items_pays (ih _ h) (assignment_pays (ih _ h))
      entries := fun h => entries_pays (ih _ h)
      functionTail := fun h => functionTail_pays (ih _ h) _
      block := fun h => block_pays (ih _ h)
      statements := fun h => statements_pays (ih _ h) _ (statement_pays (ih _ h))
      body := fun h => body_pays (ih _ h) (statement_pays (ih _ h))
      header := fun h => header_pays (ih _ h)
      declarators := fun h => declarators_pays (ih _ h)
      declarator := fun h => declarator_pays (ih _ h)
      initializer := fun h => initializer_pays (ih _ h) _
      optional := fun h => optional_pays (ih _ h) _ _
      clauses := fun h => clauses_pays (ih _ h)
      statement := fun h => statement_pays (ih _ h) }

/-- A program needs no more parentheses that enclose something than are opened in any text that it
is read from. -/
theorem groups_le_of_readTree {file text : String} {t : Tree} (h : readTree file text = .ok t) :
    (t.shape Tree.root).groups ≤ textOpenings (.code false) text.toList := by
  obtain ⟨list, script, hlist, hscript, rfl⟩ := script_of_readTree h
  obtain ⟨b, hb, hroot, hshape, -⟩ := ofStatements_holds script
  have hs : (Tree.ofStatements script).shape Tree.root =
      .node .script false (Draft.allShapes script) := by
    rw [← hroot, ← hshape]
    exact Tree.Holds.shape (z := []) (o := []) hb
  rw [← tokenize_openings hlist, hs, Shape.groups_node]
  unfold parseScript at hscript
  split at hscript
  · rename_i rest _ hread
    cases hscript
    obtain ⟨m, hm, hle⟩ := (paid _).statements (Nat.lt_succ_self _) _ hread
    have hown : Shape.ownGroups .script (Draft.allShapes script) = 0 := rfl
    rw [hown, Nat.zero_add]
    exact Nat.le_trans hm (Nat.le_trans (Nat.le_add_right _ _) hle)
  · cases hscript

end Hoist
