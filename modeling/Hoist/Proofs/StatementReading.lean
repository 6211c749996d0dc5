import Hoist.Proofs.ExpressionReading

namespace Hoist

section Statements

variable {ts : List Token}

theorem statements_reads (ih : Sound ts.length) (ends : TokenKind → Bool)
    (hstatement : Reads Draft.IsStatement ts (statement ts)) :
    Reads (Draft.Are .statement) ts (statements ends ts) := by
  unfold statements
  split
  · exact .pure Draft.are_nil (List.suffix_refl _)
  · split
    · exact .pure Draft.are_nil (List.suffix_refl _)
    · refine hstatement.bind fun first rest h hf _ => ?_
      exact (ih.statements ends rest (by omega)).bind fun others _ _ ho _ =>
        .pure (.cons hf.all ho) (List.suffix_refl _)

theorem block_reads (ih : Sound ts.length) : Reads (Draft.Is .block) ts (block ts) := by
  unfold block
  refine (expect_reads _ ts).bind fun start rest₁ h₁ _ _ => ?_
  refine (ih.statements _ rest₁ (by omega)).bind fun inside rest₂ h₂ hi _ => ?_
  exact (expect_reads _ rest₂).bind fun _ _ _ _ _ =>
    .pure (is_list Draft.are_nil hi (fun _ => rfl) (fun _ => rfl) rfl) (List.suffix_refl _)

theorem body_reads (ih : Sound ts.length)
    (hstatement : Reads Draft.IsStatement ts (statement ts)) :
    Reads (Draft.Is .block) ts (body ts) := by
  unfold body
  split
  · exact block_reads ih
  · refine hstatement.bind fun inside rest h hi _ => .pure ?_ (List.suffix_refl _)
    exact is_list (.cons hi.all Draft.are_nil) Draft.are_nil (fun _ => rfl) (fun _ => rfl) rfl
  · exact .error rfl

theorem header_reads (ih : Sound ts.length) : Reads (Draft.Is .expression) ts (header ts) := by
  unfold header
  refine (expect_reads _ ts).bind fun _ rest₁ h₁ _ _ => ?_
  refine (ih.expression rest₁ (by omega)).bind fun value rest₂ h₂ hv _ => ?_
  exact (expect_reads _ rest₂).bind fun _ _ _ _ _ => .pure hv (List.suffix_refl _)

theorem declarator_reads (ih : Sound ts.length) :
    Reads (Draft.Is .declarator) ts (declarator ts) := by
  unfold declarator
  refine (expectName_reads ts).bind fun name rest₁ h₁ hname _ => ?_
  dsimp only
  cases he : eat? (.mark .assign) rest₁ with
  | none => exact .pure (is_leaf rfl rfl hname) (List.suffix_refl _)
  | some p =>
    obtain ⟨_, more, h₂⟩ := p
    refine .of_suffix ((ih.assignment more (by omega)).bind fun value rest h₃ hv _ =>
      .pure ?_ (List.suffix_refl _)) (suffix_of_take? he).1
    exact is_last hv.value rfl rfl hname

theorem declarators_reads (ih : Sound ts.length) :
    Reads (fun ds => ds ≠ [] ∧ ∀ d ∈ ds, d.Is .declarator) ts (declarators ts) := by
  unfold declarators
  refine (declarator_reads ih).bind fun first rest₁ h₁ hf _ => ?_
  dsimp only
  cases he : eat? (.mark .comma) rest₁ with
  | none =>
    exact .pure ⟨List.cons_ne_nil _ _, List.forall_mem_singleton.mpr hf⟩ (List.suffix_refl _)
  | some p =>
    obtain ⟨_, more, h₂⟩ := p
    exact .of_suffix ((ih.declarators more (by omega)).bind fun others rest h₃ ho _ =>
      .pure ⟨List.cons_ne_nil _ _, List.forall_mem_cons.mpr ⟨hf, ho.2⟩⟩ (List.suffix_refl _))
      (suffix_of_take? he).1

theorem initializer_reads (ih : Sound ts.length) (start : Span) :
    Reads (Draft.Is .initial) ts (initializer start ts) := by
  unfold initializer
  split
  · exact .pure (is_leaf rfl rfl rfl) (List.suffix_cons _ _)
  · rename_i more
    change Sound (more.length + 1) at ih
    refine .of_suffix ((ih.declarators more (by omega)).bind fun names rest₁ h₁ hn _ => ?_)
      (List.suffix_cons _ _)
    refine (expect_reads _ rest₁).bind fun _ _ _ _ _ => .pure ?_ (List.suffix_refl _)
    obtain ⟨hne, hall⟩ := hn
    have hd := Draft.are_of_forall hall
    refine Draft.is_node _ rfl (parts_var (Draft.allShapes_ne_nil hne hall)) rfl ?_
    simpa [Draft.allShapes] using hd.forall₂
  · refine (expression_reads ih).bind fun value rest₁ h₁ hv _ => ?_
    exact (expect_reads _ rest₁).bind fun _ _ _ _ _ => .pure hv.initial (List.suffix_refl _)

theorem optional_reads (ih : Sound ts.length) (start : Span) (close : Mark) :
    Reads (Draft.Is .optional) ts (optional start close ts) := by
  unfold optional
  cases he : eat? (.mark close) ts with
  | some p => exact .pure (is_leaf rfl rfl rfl) (suffix_of_take? he).1
  | none =>
    refine (expression_reads ih).bind fun value rest₁ h₁ hv _ => ?_
    exact (expect_reads _ rest₁).bind fun _ _ _ _ _ => .pure hv.optional (List.suffix_refl _)

theorem clauses_reads (ih : Sound ts.length) : Reads (Draft.Are .clause) ts (clauses ts) := by
  unfold clauses
  split
  · rename_i start more
    change Sound (more.length + 1) at ih
    refine .of_suffix ((ih.expression more (by omega)).bind fun test rest₁ h₁ ht _ => ?_)
      (List.suffix_cons _ _)
    refine (expect_reads _ rest₁).bind fun _ rest₂ h₂ _ _ => ?_
    refine (ih.statements _ rest₂ (by omega)).bind fun inside rest₃ h₃ hi _ => ?_
    refine (ih.clauses rest₃ (by omega)).bind fun others _ _ ho _ => .pure ?_ (List.suffix_refl _)
    have hb : (Draft.node .block start [] inside).Is .block :=
      is_list Draft.are_nil hi (fun _ => rfl) (fun _ => rfl) rfl
    exact .cons (is_two ht hb rfl rfl rfl).all ho
  · rename_i start more
    change Sound (more.length + 1) at ih
    refine .of_suffix ((expect_reads _ more).bind fun _ rest₁ h₁ _ _ => ?_) (List.suffix_cons _ _)
    refine (ih.statements _ rest₁ (by omega)).bind fun inside rest₂ h₂ hi _ => ?_
    refine (ih.clauses rest₂ (by omega)).bind fun others _ _ ho _ => .pure ?_ (List.suffix_refl _)
    have hb : (Draft.node .block start [] inside).Is .block :=
      is_list Draft.are_nil hi (fun _ => rfl) (fun _ => rfl) rfl
    exact .cons (is_one hb rfl rfl rfl).all ho
  · exact .pure Draft.are_nil (List.suffix_cons _ _)
  · exact .error rfl

theorem statement_reads (ih : Sound ts.length) : Reads Draft.IsStatement ts (statement ts) := by
  unfold statement
  split
  · exact (block_reads ih).imp fun _ => Draft.Is.statement
  · rename_i more
    change Sound (more.length + 1) at ih
    refine .of_suffix ((ih.declarators more (by omega)).bind fun names rest₁ h₁ hn _ => ?_)
      (List.suffix_cons _ _)
    exact (statementEnd_reads rest₁).bind fun _ _ _ _ _ =>
      .pure (isStatement_declarations hn.1 hn.2) (List.suffix_refl _)
  · rename_i start more
    change Sound (more.length + 1) at ih
    refine .of_suffix ((ih.header more (by omega)).bind fun condition rest₁ h₁ hc _ => ?_)
      (List.suffix_cons _ _)
    refine (ih.body rest₁ (by omega)).bind fun first rest₂ h₂ hf _ => ?_
    dsimp only
    cases he : eat? (.keyword .else_) rest₂ with
    | none => exact .pure (is_two hc hf rfl rfl rfl).isStatement (List.suffix_refl _)
    | some p =>
      obtain ⟨_, more', h₃⟩ := p
      refine .of_suffix ((ih.body more' (by omega)).bind fun second rest h₄ hs _ =>
        .pure (Draft.Is.isStatement ?_) (List.suffix_refl _)) (suffix_of_take? he).1
      obtain ⟨a, ha, hap⟩ := hc
      obtain ⟨b, hb, hbp⟩ := hf
      obtain ⟨c, hc, hcp⟩ := hs
      refine Draft.is_node [.expression, .block, .block] rfl rfl rfl ?_
      simpa [Draft.allShapes, ha, hb, hc] using ⟨hap, hbp, hcp⟩
  · rename_i start more
    change Sound (more.length + 1) at ih
    refine .of_suffix ((ih.header more (by omega)).bind fun condition rest₁ h₁ hc _ => ?_)
      (List.suffix_cons _ _)
    exact (ih.body rest₁ (by omega)).bind fun inside rest₂ h₂ hi _ =>
      .pure (is_two hc hi rfl rfl rfl).isStatement (List.suffix_refl _)
  · rename_i start more
    change Sound (more.length + 1) at ih
    refine .of_suffix ((ih.body more (by omega)).bind fun inside rest₁ h₁ hi _ => ?_)
      (List.suffix_cons _ _)
    refine (expect_reads _ rest₁).bind fun _ rest₂ h₂ _ _ => ?_
    refine (ih.header rest₂ (by omega)).bind fun condition rest₃ h₃ hc _ => ?_
    exact (statementEnd_reads rest₃).bind fun _ _ _ _ _ =>
      .pure (is_two hi hc rfl rfl rfl).isStatement (List.suffix_refl _)
  · rename_i start more
    change Sound (more.length + 1) at ih
    refine .of_suffix ((expect_reads _ more).bind fun _ rest₁ h₁ _ _ => ?_) (List.suffix_cons _ _)
    refine (ih.initializer start rest₁ (by omega)).bind fun first rest₂ h₂ hf _ => ?_
    refine (ih.optional start _ rest₂ (by omega)).bind fun condition rest₃ h₃ hc _ => ?_
    refine (ih.optional start _ rest₃ (by omega)).bind fun update rest₄ h₄ hu _ => ?_
    refine (ih.body rest₄ (by omega)).bind fun inside rest₅ h₅ hi _ =>
      .pure (Draft.Is.isStatement ?_) (List.suffix_refl _)
    obtain ⟨a, ha, hap⟩ := hf
    obtain ⟨b, hb, hbp⟩ := hc
    obtain ⟨c, hc, hcp⟩ := hu
    obtain ⟨d, hd, hdp⟩ := hi
    refine Draft.is_node [.initial, .optional, .optional, .block] rfl rfl rfl ?_
    simpa [Draft.allShapes, ha, hb, hc, hd] using ⟨hap, hbp, hcp, hdp⟩
  · rename_i start more
    change Sound (more.length + 1) at ih
    refine .of_suffix ((ih.header more (by omega)).bind fun value rest₁ h₁ hv _ => ?_)
      (List.suffix_cons _ _)
    refine (expect_reads _ rest₁).bind fun _ rest₂ h₂ _ _ => ?_
    refine (ih.clauses rest₂ (by omega)).bind fun cases rest₃ h₃ hc _ =>
      .pure (Draft.Is.isStatement ?_) (List.suffix_refl _)
    obtain ⟨s, hs, hsp⟩ := hv
    refine Draft.is_node
      (.expression :: List.replicate (Draft.allShapes cases).length .clause) rfl ?_ rfl ?_
    · simp [Kind.parts]
    · simpa [Draft.allShapes, hs] using ⟨hsp, hc.forall₂⟩
  · rename_i start more
    change Sound (more.length + 1) at ih
    split
    · exact .of_suffix ((statementEnd_reads more).bind fun _ _ _ _ _ =>
        .pure (is_leaf rfl rfl rfl).isStatement (List.suffix_refl _)) (List.suffix_cons _ _)
    · refine .of_suffix ((ih.expression more (by omega)).bind fun value rest₁ h₁ hv _ => ?_)
        (List.suffix_cons _ _)
      refine (statementEnd_reads rest₁).bind fun _ _ _ _ _ =>
        .pure (Draft.Is.isStatement ?_) (List.suffix_refl _)
      exact is_last hv rfl rfl rfl
  · rename_i start more
    refine .of_suffix ((optionalName_reads more).bind fun label rest₁ h₁ hl _ => ?_)
      (List.suffix_cons _ _)
    exact (statementEnd_reads rest₁).bind fun _ _ _ _ _ =>
      .pure (Draft.Is.isStatement (is_leaf rfl rfl hl)) (List.suffix_refl _)
  · rename_i start more
    refine .of_suffix ((optionalName_reads more).bind fun label rest₁ h₁ hl _ => ?_)
      (List.suffix_cons _ _)
    exact (statementEnd_reads rest₁).bind fun _ _ _ _ _ =>
      .pure (Draft.Is.isStatement (is_leaf rfl rfl hl)) (List.suffix_refl _)
  · rename_i start more
    change Sound (more.length + 1) at ih
    refine .of_suffix ((ih.expression more (by omega)).bind fun value rest₁ h₁ hv _ => ?_)
      (List.suffix_cons _ _)
    exact (statementEnd_reads rest₁).bind fun _ _ _ _ _ =>
      .pure (is_one hv rfl rfl rfl).isStatement (List.suffix_refl _)
  · rename_i start more
    change Sound (more.length + 1) at ih
    exact .of_suffix ((ih.functionTail _ more (by omega)).bind fun value rest h hv hs =>
      .pure hv.2 (List.suffix_refl _)) (List.suffix_cons _ _)
  · exact .pure (is_leaf rfl rfl rfl).isStatement (List.suffix_cons _ _)
  · rename_i name start _ t more
    change Sound (more.length + 1 + 1 + 1) at ih
    refine .of_first fun hname => .of_suffix ((ih.statement (t :: more) ?_).bind
      fun inside rest h hi _ => .pure ?_ (List.suffix_refl _))
      ((List.suffix_cons _ _).trans (List.suffix_cons _ _))
    · simp only [List.length_cons]
      omega
    · exact Draft.Is.isStatement (is_one (hi.single _) rfl rfl hname)
  · exact .error rfl
  · refine (expression_reads ih).bind fun value rest₁ h₁ hv _ => ?_
    exact (statementEnd_reads rest₁).bind fun _ _ _ _ _ =>
      .pure (is_one hv rfl rfl rfl).isStatement (List.suffix_refl _)
  · exact .error rfl

end Statements

/-- What is read from runs of tokens of any length. -/
theorem sound (n : Nat) : Sound n := by
  induction n using Nat.strongRecOn with
  | _ n ih =>
    exact {
      expression := fun _ h => expression_reads (ih _ h)
      commaTail := fun _ _ h hl => commaTail_reads (ih _ h) hl
      assignment := fun _ h => assignment_reads (ih _ h)
      orTail := fun _ _ h hl => orTail_reads (ih _ h) hl
      conjunction := fun _ h => conjunction_reads (ih _ h)
      andTail := fun _ _ h hl => andTail_reads (ih _ h) hl
      operation := fun level _ h => operation_reads (ih _ h) level
      operationTail := fun level _ _ h hl => operationTail_reads (ih _ h) level hl
      unary := fun _ h => unary_reads (ih _ h)
      accessTail := fun calls _ _ h hl => accessTail_reads (ih _ h) calls hl
      operand := fun _ h => operand_reads (ih _ h)
      items := fun close _ h => items_reads (ih _ h) close (assignment_reads (ih _ h))
      entries := fun _ h => entries_reads (ih _ h)
      functionTail := fun start _ h => functionTail_reads (ih _ h) start
      block := fun _ h => block_reads (ih _ h)
      statements := fun ends _ h => statements_reads (ih _ h) ends (statement_reads (ih _ h))
      body := fun _ h => body_reads (ih _ h) (statement_reads (ih _ h))
      header := fun _ h => header_reads (ih _ h)
      declarators := fun _ h => declarators_reads (ih _ h)
      declarator := fun _ h => declarator_reads (ih _ h)
      initializer := fun start _ h => initializer_reads (ih _ h) start
      optional := fun start close _ h => optional_reads (ih _ h) start close
      clauses := fun _ h => clauses_reads (ih _ h)
      statement := fun _ h => statement_reads (ih _ h) }

/-- The statements that are read from a text are statements that can be written again. -/
theorem are_parseScript {list : TokenList} {script : List Draft} (hl : LegibleTokens list.tokens)
    (h : parseScript list = .ok script) : Draft.Are .statement script := by
  have hs := (sound (list.tokens.length + 1)).statements (fun _ => false) _ (Nat.lt_succ_self _) hl
  unfold parseScript at h
  split at h
  · rename_i hr
    cases h
    rw [hr] at hs
    exact hs.1
  · cases h

/-- Where no statements are read the program is at fault. -/
theorem category_of_parseScript {list : TokenList} {problem : Problem}
    (hl : LegibleTokens list.tokens) (h : parseScript list = .error problem) :
    problem.cause.category = .program := by
  have hs := (sound (list.tokens.length + 1)).statements (fun _ => false) _ (Nat.lt_succ_self _) hl
  unfold parseScript at h
  split at h
  · cases h
  · rename_i hr
    cases h
    rw [hr] at hs
    exact hs

end Hoist
