import Hoist.Proofs.Drafting
import Hoist.Proofs.Reading

namespace Hoist

/-- What is read from runs of tokens that are shorter than a bound. -/
structure Sound (n : Nat) : Prop where
  expression : ∀ ts, ts.length < n → Reads (Draft.Is .expression) ts (expression ts)
  commaTail : ∀ left ts, ts.length < n → left.Is .expression →
    Reads (Draft.Is .expression) ts (commaTail left ts)
  assignment : ∀ ts, ts.length < n → Reads (Draft.Is .expression) ts (assignment ts)
  orTail : ∀ left ts, ts.length < n → left.Is .expression →
    Reads (Draft.Is .expression) ts (orTail left ts)
  conjunction : ∀ ts, ts.length < n → Reads (Draft.Is .expression) ts (conjunction ts)
  andTail : ∀ left ts, ts.length < n → left.Is .expression →
    Reads (Draft.Is .expression) ts (andTail left ts)
  operation : ∀ level ts, ts.length < n → Reads (Draft.Is .expression) ts (operation level ts)
  operationTail : ∀ level left ts, ts.length < n → left.Is .expression →
    Reads (Draft.Is .expression) ts (operationTail level left ts)
  unary : ∀ ts, ts.length < n → Reads (Draft.Is .expression) ts (unary ts)
  accessTail : ∀ calls left ts, ts.length < n → left.Is .expression →
    Reads (Draft.Is .expression) ts (accessTail calls left ts)
  operand : ∀ ts, ts.length < n → Reads (Draft.Is .expression) ts (operand ts)
  items : ∀ close ts, ts.length < n → Reads (Draft.Are .expression) ts (items close ts)
  entries : ∀ ts, ts.length < n → Reads (Draft.Are .entry) ts (entries ts)
  functionTail : ∀ start ts, ts.length < n →
    Reads (fun d => d.Is .expression ∧ d.IsStatement) ts (functionTail start ts)
  block : ∀ ts, ts.length < n → Reads (Draft.Is .block) ts (block ts)
  statements : ∀ ends ts, ts.length < n → Reads (Draft.Are .statement) ts (statements ends ts)
  body : ∀ ts, ts.length < n → Reads (Draft.Is .block) ts (body ts)
  header : ∀ ts, ts.length < n → Reads (Draft.Is .expression) ts (header ts)
  declarators : ∀ ts, ts.length < n → Reads (fun ds => ds ≠ [] ∧ ∀ d ∈ ds, d.Is .declarator) ts
    (declarators ts)
  declarator : ∀ ts, ts.length < n → Reads (Draft.Is .declarator) ts (declarator ts)
  initializer : ∀ start ts, ts.length < n →
    Reads (Draft.Is .initial) ts (initializer start ts)
  optional : ∀ start close ts, ts.length < n →
    Reads (Draft.Is .optional) ts (optional start close ts)
  clauses : ∀ ts, ts.length < n → Reads (Draft.Are .clause) ts (clauses ts)
  statement : ∀ ts, ts.length < n →
    Reads Draft.IsStatement ts (statement ts)

section Expressions

variable {ts : List Token}

theorem commaTail_reads (ih : Sound ts.length) {left : Draft} (hl : left.Is .expression) :
    Reads (Draft.Is .expression) ts (commaTail left ts) := by
  unfold commaTail
  split
  · rename_i more
    change Sound (more.length + 1) at ih
    refine .of_suffix ((ih.assignment more (by omega)).bind fun right rest h hr hs => ?_)
      (List.suffix_cons _ _)
    refine (ih.commaTail _ rest (by omega) (is_two hl hr rfl rfl rfl)).bind
      fun value rest' h' hv hs' => .pure hv (List.suffix_refl _)
  · exact .pure hl (List.suffix_refl _)

theorem orTail_reads (ih : Sound ts.length) {left : Draft} (hl : left.Is .expression) :
    Reads (Draft.Is .expression) ts (orTail left ts) := by
  unfold orTail
  split
  · rename_i more
    change Sound (more.length + 1) at ih
    refine .of_suffix ((ih.conjunction more (by omega)).bind fun right rest h hr hs => ?_)
      (List.suffix_cons _ _)
    refine (ih.orTail _ rest (by omega) (is_two hl hr rfl rfl rfl)).bind
      fun value rest' h' hv hs' => .pure hv (List.suffix_refl _)
  · exact .pure hl (List.suffix_refl _)

theorem andTail_reads (ih : Sound ts.length) {left : Draft} (hl : left.Is .expression) :
    Reads (Draft.Is .expression) ts (andTail left ts) := by
  unfold andTail
  split
  · rename_i more
    change Sound (more.length + 1) at ih
    refine .of_suffix ((ih.operation 0 more (by omega)).bind fun right rest h hr hs => ?_)
      (List.suffix_cons _ _)
    refine (ih.andTail _ rest (by omega) (is_two hl hr rfl rfl rfl)).bind
      fun value rest' h' hv hs' => .pure hv (List.suffix_refl _)
  · exact .pure hl (List.suffix_refl _)

theorem operationTail_reads (ih : Sound ts.length) (level : Nat) {left : Draft}
    (hl : left.Is .expression) : Reads (Draft.Is .expression) ts (operationTail level left ts) := by
  unfold operationTail
  split
  · exact .pure hl (List.suffix_refl _)
  · rename_i t more
    change Sound (more.length + 1) at ih
    split
    · exact .pure hl (List.suffix_refl _)
    · rename_i op hop
      split
      · exact .pure hl (List.suffix_refl _)
      · refine .of_suffix ((ih.operation _ more (by omega)).bind fun right rest h hr hs => ?_)
          (List.suffix_cons _ _)
        refine (ih.operationTail level _ rest (by omega) (is_two hl hr rfl rfl rfl)).bind
          fun value rest' h' hv hs' => .pure hv (List.suffix_refl _)

theorem items_reads (ih : Sound ts.length) (close : Mark)
    (hassign : Reads (Draft.Is .expression) ts (assignment ts)) :
    Reads (Draft.Are .expression) ts (items close ts) := by
  unfold items
  cases hc : eat? (.mark close) ts with
  | some p => exact .pure Draft.are_nil (suffix_of_take? hc).1
  | none =>
    refine hassign.bind fun item rest h hi hs => ?_
    dsimp only
    cases he : eat? (.mark .comma) rest with
    | some p =>
      obtain ⟨_, more, hm⟩ := p
      exact .of_suffix ((ih.items close more (by omega)).bind fun others _ _ ho _ =>
        .pure (.cons hi.all ho) (List.suffix_refl _)) (suffix_of_take? he).1
    | none =>
      exact (expect_reads _ rest).bind fun _ _ _ _ _ =>
        .pure (.cons hi.all Draft.are_nil) (List.suffix_refl _)

/-- A member of an object or a call behind a value. -/
theorem accessTail_reads (ih : Sound ts.length) (calls : Bool) {left : Draft}
    (hl : left.Is .expression) : Reads (Draft.Is .expression) ts (accessTail calls left ts) := by
  unfold accessTail
  split
  · rename_i more
    change Sound (more.length + 1) at ih
    refine .of_suffix ((propertyName_reads more).bind fun p rest h hp hs => ?_)
      (List.suffix_cons _ _)
    refine (ih.accessTail calls _ rest (by omega) ?_).bind
      fun value _ _ hv _ => .pure hv (List.suffix_refl _)
    exact is_one hl rfl rfl hp
  · rename_i more
    change Sound (more.length + 1) at ih
    refine .of_suffix ((ih.expression more (by omega)).bind fun key rest h hk hs => ?_)
      (List.suffix_cons _ _)
    refine (expect_reads _ rest).bind fun last rest' h' _ hs' => ?_
    refine (ih.accessTail calls _ rest' (by omega) (is_two hl hk rfl rfl rfl)).bind
      fun value _ _ hv _ => .pure hv (List.suffix_refl _)
  · rename_i more
    change Sound (more.length + 1) at ih
    split
    · refine .of_suffix ((ih.items _ more (by omega)).bind fun args rest h ha hs => ?_)
        (List.suffix_cons _ _)
      refine (ih.accessTail calls _ rest (by omega) ?_).bind
        fun value _ _ hv _ => .pure hv (List.suffix_refl _)
      exact is_applied hl ha (fun _ => rfl) (fun _ => rfl) rfl
    · exact .pure hl (List.suffix_refl _)
  · exact .pure hl (List.suffix_refl _)

theorem literal?_isLegible {kind : TokenKind} {k : Kind} (h : literal? kind = some k)
    (hl : kind.isLegible = true) :
    k.isLegible = true ∧ k.isExpression 0 = true ∧ k.parts 0 = some [] := by
  unfold literal? at h
  split at h <;> cases h
  all_goals exact ⟨hl, rfl, rfl⟩

theorem primary_reads (ih : Sound ts.length) : Reads (Draft.Is .expression) ts (primary ts) := by
  unfold primary
  split
  · rename_i more
    change Sound (more.length + 1) at ih
    refine .of_suffix ((ih.expression more (by omega)).bind fun value rest h hv hs => ?_)
      (List.suffix_cons _ _)
    exact (expect_reads _ rest).bind fun _ _ _ _ _ => .pure hv (List.suffix_refl _)
  · rename_i more
    change Sound (more.length + 1) at ih
    exact .of_suffix ((ih.items _ more (by omega)).bind fun elements rest h he hs =>
      .pure (is_list Draft.are_nil he (fun _ => rfl) (fun _ => rfl) rfl) (List.suffix_refl _))
      (List.suffix_cons _ _)
  · rename_i more
    change Sound (more.length + 1) at ih
    exact .of_suffix ((ih.entries more (by omega)).bind fun keys rest h hk hs =>
      .pure (is_list Draft.are_nil hk (fun _ => rfl) (fun _ => rfl) rfl) (List.suffix_refl _))
      (List.suffix_cons _ _)
  · rename_i more
    change Sound (more.length + 1) at ih
    exact .of_suffix ((ih.functionTail _ more (by omega)).bind fun value rest h hv hs =>
      .pure hv.1 (List.suffix_refl _)) (List.suffix_cons _ _)
  · rename_i t more _ _ _ _
    split
    · rename_i kind hk
      refine .of_first fun ht => .pure ?_ (List.suffix_cons _ _)
      obtain ⟨hlegible, hex, hparts⟩ := literal?_isLegible hk ht
      exact is_leaf hex hparts hlegible
    · exact .error rfl
  · exact .error rfl

theorem operand_reads (ih : Sound ts.length) : Reads (Draft.Is .expression) ts (operand ts) := by
  unfold operand
  split
  · rename_i more
    change Sound (more.length + 1) at ih
    refine .of_suffix ((ih.operand more (by omega)).bind fun base rest₁ h₁ hb _ => ?_)
      (List.suffix_cons _ _)
    refine (ih.accessTail false base rest₁ (by omega) hb).bind fun callee rest₂ h₂ hc _ => ?_
    dsimp only
    cases he : eat? (.mark .openParen) rest₂ with
    | none =>
      exact .pure (is_applied hc Draft.are_nil (fun _ => rfl) (fun _ => rfl) rfl)
        (List.suffix_refl _)
    | some p =>
      obtain ⟨_, more', h₃⟩ := p
      exact .of_suffix ((ih.items _ more' (by omega)).bind fun arguments _ _ ha _ =>
        .pure (is_applied hc ha (fun _ => rfl) (fun _ => rfl) rfl) (List.suffix_refl _))
        (suffix_of_take? he).1
  · exact primary_reads ih

theorem access_reads (ih : Sound ts.length) : Reads (Draft.Is .expression) ts (access ts) := by
  unfold access
  refine (operand_reads ih).bind fun base rest h hb _ => ?_
  exact (ih.accessTail true base rest (by omega) hb).bind fun _ _ _ hv _ =>
    .pure hv (List.suffix_refl _)

/-- What is read behind a target is read only where it is one. -/
theorem Reads.checked {β : Type} {m : Nat} {Q : β → Prop} {use : TargetUse} {target : Draft}
    {x : Parse β m} (hd : target.Is .expression) (hx : target.Is .target → Reads Q ts x) :
    Reads Q ts (do checkTarget use target; x) := by
  unfold checkTarget
  split
  · rename_i ht
    exact hx (hd.target ht)
  · exact .error rfl

theorem stepped_reads (ih : Sound ts.length) : Reads (Draft.Is .expression) ts (stepped ts) := by
  unfold stepped
  refine (access_reads ih).bind fun target rest h ht _ => ?_
  dsimp only
  cases he : take? stepOp? rest with
  | none => exact .pure ht (List.suffix_refl _)
  | some p =>
    exact .checked ht fun htarget => .pure (is_one htarget rfl rfl rfl) (suffix_of_take? he).1

theorem unary_reads (ih : Sound ts.length) : Reads (Draft.Is .expression) ts (unary ts) := by
  unfold unary
  split
  · exact stepped_reads ih
  · rename_i t more
    have hmore := ih
    change Sound (more.length + 1) at hmore
    split
    · refine .of_suffix ((hmore.unary more (by omega)).bind fun target rest h ht _ => ?_)
        (List.suffix_cons _ _)
      exact .checked ht fun htarget => .pure (is_one htarget rfl rfl rfl) (List.suffix_refl _)
    · exact .of_suffix ((hmore.unary more (by omega)).bind fun operand rest h ho _ =>
        .pure (is_one ho rfl rfl rfl) (List.suffix_refl _)) (List.suffix_cons _ _)
    · exact stepped_reads ih

theorem operation_reads (ih : Sound ts.length) (level : Nat) :
    Reads (Draft.Is .expression) ts (operation level ts) := by
  unfold operation
  refine (unary_reads ih).bind fun left rest h hl _ => ?_
  exact (ih.operationTail level left rest (by omega) hl).bind fun _ _ _ hv _ =>
    .pure hv (List.suffix_refl _)

theorem conjunction_reads (ih : Sound ts.length) :
    Reads (Draft.Is .expression) ts (conjunction ts) := by
  unfold conjunction
  refine (operation_reads ih 0).bind fun left rest h hl _ => ?_
  exact (ih.andTail left rest (by omega) hl).bind fun _ _ _ hv _ => .pure hv (List.suffix_refl _)

theorem disjunction_reads (ih : Sound ts.length) :
    Reads (Draft.Is .expression) ts (disjunction ts) := by
  unfold disjunction
  refine (conjunction_reads ih).bind fun left rest h hl _ => ?_
  exact (ih.orTail left rest (by omega) hl).bind fun _ _ _ hv _ => .pure hv (List.suffix_refl _)

theorem conditional_reads (ih : Sound ts.length) :
    Reads (Draft.Is .expression) ts (conditional ts) := by
  unfold conditional
  refine (disjunction_reads ih).bind fun condition rest h hc _ => ?_
  dsimp only
  cases he : eat? (.mark .question) rest with
  | none => exact .pure hc (List.suffix_refl _)
  | some p =>
    obtain ⟨_, more, h₁⟩ := p
    refine .of_suffix ((ih.assignment more (by omega)).bind fun first rest₁ h₂ hf _ => ?_)
      (suffix_of_take? he).1
    refine (expect_reads _ rest₁).bind fun _ rest₂ h₃ _ _ => ?_
    refine (ih.assignment rest₂ (by omega)).bind fun second rest₃ h₄ hs _ => ?_
    refine .pure ?_ (List.suffix_refl _)
    obtain ⟨a, ha, hap⟩ := hc
    obtain ⟨b, hb, hbp⟩ := hf
    obtain ⟨c, hc, hcp⟩ := hs
    refine Draft.is_node [.expression, .expression, .expression] rfl rfl rfl ?_
    simpa [Draft.allShapes, ha, hb, hc] using ⟨hap, hbp, hcp⟩

theorem assignmentKind?_isLegible {kind : TokenKind} {k : Kind} (h : assignmentKind? kind = some k) :
    k.isLegible = true ∧ k.isExpression 2 = true ∧ k.parts 2 = some [.target, .expression] := by
  unfold assignmentKind? at h
  split at h <;> cases h
  all_goals exact ⟨rfl, rfl, rfl⟩

theorem assignment_reads (ih : Sound ts.length) :
    Reads (Draft.Is .expression) ts (assignment ts) := by
  unfold assignment
  refine (conditional_reads ih).bind fun target rest h ht _ => ?_
  dsimp only
  cases he : take? assignmentKind? rest with
  | none => exact .pure ht (List.suffix_refl _)
  | some p =>
    obtain ⟨⟨kind, _⟩, more, h₁⟩ := p
    refine .checked ht fun htarget => .of_suffix ?_ (suffix_of_take? he).1
    refine (ih.assignment more (by omega)).bind fun value rest' h₂ hv _ =>
      .pure ?_ (List.suffix_refl _)
    obtain ⟨-, t, -, hk⟩ := suffix_of_take? he
    obtain ⟨hlegible, hex, hparts⟩ := assignmentKind?_isLegible hk
    exact is_two htarget hv hex hparts hlegible

theorem expression_reads (ih : Sound ts.length) :
    Reads (Draft.Is .expression) ts (expression ts) := by
  unfold expression
  refine (assignment_reads ih).bind fun left rest h hl _ => ?_
  exact (ih.commaTail left rest (by omega) hl).bind fun _ _ _ hv _ => .pure hv (List.suffix_refl _)

theorem entries_reads (ih : Sound ts.length) : Reads (Draft.Are .entry) ts (entries ts) := by
  unfold entries
  cases hc : eat? (.mark .closeBrace) ts with
  | some p => exact .pure Draft.are_nil (suffix_of_take? hc).1
  | none =>
    refine (entryKey_reads ts).bind fun key rest₁ h₁ _ _ => ?_
    refine (expect_reads _ rest₁).bind fun _ rest₂ h₂ _ _ => ?_
    refine (ih.assignment rest₂ (by omega)).bind fun value rest₃ h₃ hv _ => ?_
    have hkey : (Draft.node (.key key.1) key.2 [value] []).Is .entry := is_one hv rfl rfl rfl
    dsimp only
    cases he : eat? (.mark .comma) rest₃ with
    | some p =>
      obtain ⟨_, more, h₄⟩ := p
      exact .of_suffix ((ih.entries more (by omega)).bind fun others _ _ ho _ =>
        .pure (.cons hkey.all ho) (List.suffix_refl _)) (suffix_of_take? he).1
    | none =>
      exact (expect_reads _ rest₃).bind fun _ _ _ _ _ =>
        .pure (.cons hkey.all Draft.are_nil) (List.suffix_refl _)

theorem functionTail_reads (ih : Sound ts.length) (start : Span) :
    Reads (fun d => d.Is .expression ∧ d.IsStatement) ts (functionTail start ts) := by
  unfold functionTail
  refine (optionalName_reads ts).bind fun name rest₁ h₁ hname _ => ?_
  refine (expect_reads _ rest₁).bind fun _ rest₂ h₂ _ _ => ?_
  refine (parameters_reads rest₂).bind fun params rest₃ h₃ hparams _ => ?_
  refine (ih.block rest₃ (by omega)).bind fun body rest₄ h₄ hb _ => .pure ?_ (List.suffix_refl _)
  obtain ⟨s, hs, hsp⟩ := hb
  have hk : (Kind.function name params).isLegible = true := Bool.and_eq_true_iff.mpr ⟨hname, hparams⟩
  have hparts : List.Forall₂ Shape.Proper [.block] (Draft.allShapes [body] ++ Draft.allShapes []) := by
    simpa [Draft.allShapes, hs] using hsp
  exact ⟨Draft.is_node _ rfl rfl hk hparts, (Draft.is_node _ rfl rfl hk hparts).isStatement⟩

end Expressions

end Hoist
