import Hoist.Proofs.Layering
import Hoist.Proofs.Paying

namespace Hoist

/-- Whether tokens begin with a function or an object literal. -/
def leading (ts : List Token) : Bool := ts.head?.any fun t => t.kind.isLeading

open Shape (held chained)

/-- What is read from runs of tokens that are shorter than a bound costs no more parentheses than
are opened in the tokens. What stands in front was paid for before. -/
structure Paid (n : Nat) : Prop where
  expression : ∀ {ts}, ts.length < n →
    Pays (Draft.Costs (held commaLevel (leading ts))) ts (expression ts)
  commaTail : ∀ {free left m ts}, ts.length < n → left.Costs (held commaLevel free) m →
    Pays (fun d k => d.Costs (held commaLevel free) (m + k)) ts (commaTail left ts)
  assignment : ∀ {ts}, ts.length < n →
    Pays (Draft.Costs (held assignLevel (leading ts))) ts (assignment ts)
  orTail : ∀ {free left m ts}, ts.length < n → left.Costs (held orLevel free) m →
    Pays (fun d k => d.Costs (held orLevel free) (m + k)) ts (orTail left ts)
  conjunction : ∀ {ts}, ts.length < n →
    Pays (Draft.Costs (held andLevel (leading ts))) ts (conjunction ts)
  andTail : ∀ {free left m ts}, ts.length < n → left.Costs (held andLevel free) m →
    Pays (fun d k => d.Costs (held andLevel free) (m + k)) ts (andTail left ts)
  operation : ∀ {level place ts}, ts.length < n → place ≤ unaryLevel →
    (∀ op : BinaryOp, level ≤ op.precedence → place ≤ op.precedence) →
      Pays (Draft.Costs (held place (leading ts))) ts (operation level ts)
  operationTail : ∀ {free level place bound left m ts}, ts.length < n → place ≤ bound →
    (∀ op : BinaryOp, level ≤ op.precedence → place ≤ op.precedence) →
      ¬ Continues (bound + 1) ts → left.Costs (held bound free) m →
        Pays (fun d k => d.Costs (held place free) (m + k)) ts (operationTail level left ts)
  unary : ∀ {ts}, ts.length < n →
    Pays (Draft.Costs (held unaryLevel (leading ts))) ts (unary ts)
  accessTail : ∀ {calls free left m ts}, ts.length < n → left.Costs (chained calls free) m →
    Pays (fun d k => d.Costs (chained calls free) (m + k)) ts (accessTail calls left ts)
  operand : ∀ {ts}, ts.length < n →
    Pays (Draft.Costs (chained false (leading ts))) ts (operand ts)
  items : ∀ {close ts}, ts.length < n →
    Pays (Draft.AllCost assignLevel) ts (items close ts)
  entries : ∀ {ts}, ts.length < n → Pays (Draft.AllCost commaLevel) ts (entries ts)
  functionTail : ∀ {start ts}, ts.length < n →
    Pays (Draft.Costs (chained false true)) ts (functionTail start ts)
  block : ∀ {ts}, ts.length < n → Pays (Draft.Costs fun _ => false) ts (block ts)
  statements : ∀ {ends ts}, ts.length < n →
    Pays (Draft.AllCost commaLevel) ts (statements ends ts)
  body : ∀ {ts}, ts.length < n → Pays (Draft.Costs fun _ => false) ts (body ts)
  header : ∀ {ts}, ts.length < n → Pays (Draft.Costs fun _ => true) ts (header ts)
  declarators : ∀ {ts}, ts.length < n → Pays (Draft.AllCost commaLevel) ts (declarators ts)
  declarator : ∀ {ts}, ts.length < n → Pays (Draft.Costs fun _ => false) ts (declarator ts)
  initializer : ∀ {start ts}, ts.length < n →
    Pays (Draft.Costs fun _ => false) ts (initializer start ts)
  optional : ∀ {start close ts}, ts.length < n →
    Pays (Draft.Costs fun _ => false) ts (optional start close ts)
  clauses : ∀ {ts}, ts.length < n → Pays (Draft.AllCost commaLevel) ts (clauses ts)
  statement : ∀ {ts}, ts.length < n →
    Pays (fun d => Draft.AllCost commaLevel [d]) ts (statement ts)

/-- An operator between two operands binds tighter than `&&` and looser than one in front of an
operand. -/
theorem BinaryOp.andLevel_lt_precedence (op : BinaryOp) : andLevel < op.precedence := by
  cases op <;> decide

theorem BinaryOp.precedence_lt_unaryLevel (op : BinaryOp) : op.precedence < unaryLevel := by
  cases op <;> decide

section Expressions

variable {ts : List Token} {free : Bool} {m : Nat} {left : Draft}

theorem commaTail_pays (ih : Paid ts.length) (hl : left.Costs (held commaLevel free) m) :
    Pays (fun d k => d.Costs (held commaLevel free) (m + k)) ts (commaTail left ts) := by
  unfold commaTail
  split
  · rename_i more
    change Paid (more.length + 1) at ih
    refine .of_suffix ((ih.assignment (by omega)).bind fun right rest h k hr => ?_)
      (List.suffix_cons _ _)
    have hnode : (Draft.spanning .comma left right [left, right]).Costs (held commaLevel free)
        (m + k) :=
      Draft.costs_spanning rfl (by decide) (fun _ => rfl) hl (hr.lower (by decide)).all
    exact (ih.commaTail (by omega) hnode).bind fun value _ _ j hv =>
      .pure (hv.mono (by omega)) (List.suffix_refl _)
  · exact .pure hl (List.suffix_refl _)

theorem orTail_pays (ih : Paid ts.length) (hl : left.Costs (held orLevel free) m) :
    Pays (fun d k => d.Costs (held orLevel free) (m + k)) ts (orTail left ts) := by
  unfold orTail
  split
  · rename_i more
    change Paid (more.length + 1) at ih
    refine .of_suffix ((ih.conjunction (by omega)).bind fun right rest h k hr => ?_)
      (List.suffix_cons _ _)
    have hnode : (Draft.spanning .or_ left right [left, right]).Costs (held orLevel free) (m + k) :=
      Draft.costs_spanning rfl (by decide) (fun _ => rfl) hl hr.all
    exact (ih.orTail (by omega) hnode).bind fun value _ _ j hv =>
      .pure (hv.mono (by omega)) (List.suffix_refl _)
  · exact .pure hl (List.suffix_refl _)

theorem andTail_pays (ih : Paid ts.length) (hl : left.Costs (held andLevel free) m) :
    Pays (fun d k => d.Costs (held andLevel free) (m + k)) ts (andTail left ts) := by
  unfold andTail
  split
  · rename_i more
    change Paid (more.length + 1) at ih
    refine .of_suffix ((ih.operation (by omega) (by decide) fun op _ =>
      op.andLevel_lt_precedence).bind fun right rest h k hr => ?_) (List.suffix_cons _ _)
    have hnode : (Draft.spanning .and_ left right [left, right]).Costs (held andLevel free)
        (m + k) :=
      Draft.costs_spanning rfl (by decide) (fun _ => rfl) hl hr.all
    exact (ih.andTail (by omega) hnode).bind fun value _ _ j hv =>
      .pure (hv.mono (by omega)) (List.suffix_refl _)
  · exact .pure hl (List.suffix_refl _)

/-- The operators behind an operand. None of them binds tighter than what stands in front. -/
theorem operationTail_pays (ih : Paid ts.length) {level place bound : Nat} (hb : place ≤ bound)
    (hplace : ∀ op : BinaryOp, level ≤ op.precedence → place ≤ op.precedence)
    (hnext : ¬ Continues (bound + 1) ts) (hl : left.Costs (held bound free) m) :
    Pays (fun d k => d.Costs (held place free) (m + k)) ts (operationTail level left ts) := by
  unfold operationTail
  split
  · exact .pure (hl.lower hb) (List.suffix_refl _)
  · rename_i t more
    change Paid (more.length + 1) at ih
    split
    · exact .pure (hl.lower hb) (List.suffix_refl _)
    · rename_i op hop
      split
      · exact .pure (hl.lower hb) (List.suffix_refl _)
      · rename_i hlevel
        have hbound : op.precedence ≤ bound :=
          Nat.le_of_not_lt fun hlt => hnext ⟨t, more, op, rfl, hop, hlt⟩
        have hoperand : Pays (Draft.Costs (held (op.precedence + 1) (leading more))) more
            (operation (op.precedence + 1) more) :=
          ih.operation (by omega) op.precedence_lt_unaryLevel fun _ h => h
        refine .of_suffix (hoperand.bind_ok fun right rest h k hread hr => ?_)
          (List.suffix_cons _ _)
        have hnode : (Draft.spanning (.binary op) left right [left, right]).Costs
            (held op.precedence free) (m + k) :=
          Draft.costs_spanning rfl (Nat.le_refl _) (fun _ => rfl) (hl.lower hbound) hr.all
        have hstop : ¬ Continues (op.precedence + 1) rest := not_continues_operation hread
        exact (ih.operationTail (by omega) (hplace op (Nat.le_of_not_lt hlevel)) hplace hstop
          hnode).bind fun value _ _ j hv =>
            .pure (hv.mono (by omega)) (List.suffix_refl _)

/-- Operands between commas up to the mark that closes them. -/
theorem items_pays (ih : Paid ts.length) {close : Mark}
    (hassign : Pays (Draft.Costs (held assignLevel free)) ts (assignment ts)) :
    Pays (Draft.AllCost assignLevel) ts (items close ts) := by
  unfold items
  cases hc : eat? (.mark close) ts with
  | some p => exact .pure Draft.allCost_nil (suffix_of_take? hc).1
  | none =>
    refine hassign.bind fun item rest h k hi => ?_
    dsimp only
    cases he : eat? (.mark .comma) rest with
    | some p =>
      obtain ⟨_, more, hm⟩ := p
      exact .of_suffix ((ih.items (by omega)).bind fun others _ _ j ho =>
        .pure (hi.all.cons ho) (List.suffix_refl _)) (suffix_of_take? he).1
    | none =>
      exact (expect_pays _ rest).next fun _ _ _ => .pure hi.all (List.suffix_refl _)

/-- Operands in parentheses pay for these, where there are any. -/
theorem items_opened {span : Span}
    (h : Pays (Draft.AllCost assignLevel) ts (items .closeParen ts)) :
    Pays Draft.ListCost (⟨.mark .openParen, span⟩ :: ts) (items .closeParen ts) := by
  by_cases hc : ts.head?.map Token.kind = some (.mark .closeParen)
  · cases ts with
    | nil => cases hc
    | cons t rest =>
      obtain ⟨k, close⟩ := t
      obtain rfl := Option.some.inj hc
      unfold items
      refine .pure ?_ ((List.suffix_cons _ _).trans (List.suffix_cons _ _))
      simp [Draft.ListCost, Draft.allShapes]
  · refine .opened (fun h => absurd h hc) (h.imp fun ds m hds => ?_)
    have := Bool.toNat_le (!(Draft.allShapes ds).isEmpty)
    rw [Draft.AllCost] at hds
    rw [Draft.ListCost]
    omega

/-- A member of an object or a call behind a value. -/
theorem accessTail_pays (ih : Paid ts.length) {calls : Bool} (hl : left.Costs (chained calls free) m) :
    Pays (fun d k => d.Costs (chained calls free) (m + k)) ts (accessTail calls left ts) := by
  unfold accessTail
  split
  · rename_i more
    change Paid (more.length + 1) at ih
    refine .of_suffix ((propertyName_pays more).next fun name rest h => ?_) (List.suffix_cons _ _)
    obtain ⟨x, last⟩ := name
    have hnode : (Draft.node (.property x) (left.span.to last) [left] []).Costs
        (chained calls free) (m + 0) :=
      Draft.costs_member rfl hl Draft.allCost_nil
    exact (ih.accessTail (by omega) hnode).bind fun value _ _ j hv =>
      .pure hv (List.suffix_refl _)
  · rename_i more
    change Paid (more.length + 1) at ih
    refine .of_suffix ((ih.expression (by omega)).bind fun key rest h k hk => ?_)
      (List.suffix_cons _ _)
    refine (expect_pays _ rest).next fun last rest' h' => ?_
    have hnode : (Draft.node .element (left.span.to last) [left, key] []).Costs
        (chained calls free) (m + k) :=
      Draft.costs_member rfl hl hk.all
    exact (ih.accessTail (by omega) hnode).bind fun value _ _ j hv =>
      .pure (hv.mono (by omega)) (List.suffix_refl _)
  · rename_i span more
    change Paid (more.length + 1) at ih
    split
    · rename_i hcalls
      obtain rfl : calls = true := hcalls
      refine (items_opened (ih.items (by omega))).bind fun args rest h k ha => ?_
      have hnode : (Draft.node .call left.span [left] args).Costs (chained true free) (m + k) :=
        Draft.costs_call hl ha
      exact (ih.accessTail (by omega) hnode).bind fun value _ _ j hv =>
        .pure (hv.mono (by omega)) (List.suffix_refl _)
    · exact .pure hl (List.suffix_refl _)
  · exact .pure hl (List.suffix_refl _)

/-- A literal needs no parentheses anywhere. -/
theorem costs_literal {k : TokenKind} {kind : Kind} (h : literal? k = some kind) (span : Span)
    (calls : Bool) : (Draft.leaf kind span).Costs (chained calls free) 0 := by
  unfold literal? at h
  split at h <;> cases h
  all_goals
    exact (Draft.costs_leaf fun _ => rfl).chained rfl (Nat.le_of_ble_eq_true rfl)
      fun h => absurd h Bool.false_ne_true

theorem primary_pays (ih : Paid ts.length) :
    Pays (Draft.Costs (chained false (leading ts))) ts (primary ts) := by
  unfold primary
  split
  · rename_i more
    change Paid (more.length + 1) at ih
    refine .opened (expression_refuses rfl).bind
      ((ih.expression (by omega)).bind fun value rest h k hv => ?_)
    exact (expect_pays _ rest).next fun _ _ _ => .pure (.anywhere hv.enclosed) (List.suffix_refl _)
  · rename_i more
    change Paid (more.length + 1) at ih
    refine .of_suffix ((ih.items (by omega)).bind fun elements rest h k he => ?_)
      (List.suffix_cons _ _)
    have hnode : ∀ span, (Draft.node .array span [] elements).Costs (fun _ => false) k :=
      fun _ => Draft.costs_after (fun _ => rfl) rfl rfl he
    exact .pure ((hnode _).chained rfl (Nat.le_of_ble_eq_true rfl) fun h => absurd h Bool.false_ne_true)
      (List.suffix_refl _)
  · rename_i more
    change Paid (more.length + 1) at ih
    refine .of_suffix ((ih.entries (by omega)).bind fun keys rest h k hk => ?_)
      (List.suffix_cons _ _)
    have hnode : ∀ span, (Draft.node .object span [] keys).Costs (fun _ => false) k :=
      fun _ => Draft.costs_after (fun _ => rfl) rfl rfl hk
    exact .pure ((hnode _).chained rfl (Nat.le_of_ble_eq_true rfl) fun _ => rfl)
      (List.suffix_refl _)
  · rename_i more
    change Paid (more.length + 1) at ih
    exact .of_suffix ((ih.functionTail (by omega)).bind fun value rest h k hv =>
      .pure hv (List.suffix_refl _)) (List.suffix_cons _ _)
  · rename_i t more _ _ _ _
    split
    · rename_i kind hk
      exact .pure (costs_literal hk _ _) (List.suffix_cons _ _)
    · exact .error
  · exact .error

theorem operand_pays (ih : Paid ts.length) :
    Pays (Draft.Costs (chained false (leading ts))) ts (operand ts) := by
  unfold operand
  split
  · rename_i start more
    change Paid (more.length + 1) at ih
    refine .of_suffix ((ih.operand (by omega)).bind fun base rest₁ h₁ m hb => ?_)
      (List.suffix_cons _ _)
    refine (ih.accessTail (by omega) hb).bind fun callee rest₂ h₂ k hc => ?_
    dsimp only
    cases he : eat? (.mark .openParen) rest₂ with
    | none =>
      have hnode : (Draft.node .new start [callee] []).Costs (fun _ => false) (m + k + 0) :=
        Draft.costs_new hc (Nat.le_refl _)
      exact .pure (hnode.chained rfl (Nat.le_of_ble_eq_true rfl) fun h => absurd h Bool.false_ne_true)
        (List.suffix_refl _)
    | some p =>
      obtain ⟨_, more', h₃⟩ := p
      refine .eaten he fun span => (items_opened (ih.items (by omega))).bind
        fun arguments _ _ j ha => ?_
      have hnode : (Draft.node .new start [callee] arguments).Costs (fun _ => false) (m + k + j) :=
        Draft.costs_new hc ha
      have hless : m + k + j ≤ m + (k + j) := by omega
      exact .pure ((hnode.mono hless).chained rfl (Nat.le_of_ble_eq_true rfl)
        fun h => absurd h Bool.false_ne_true) (List.suffix_refl _)
  · exact primary_pays ih

theorem access_pays (ih : Paid ts.length) :
    Pays (Draft.Costs (held callLevel (leading ts))) ts (access ts) := by
  unfold access
  refine (operand_pays ih).bind fun base rest h m hb => ?_
  have hbase : base.Costs (chained true (leading ts)) m := hb.imp fun _ => Shape.chained_of_true
  exact (ih.accessTail (by omega) hbase).bind fun _ _ _ k hv =>
    .pure (hv.imp fun _ h => Shape.chained_true ▸ h) (List.suffix_refl _)

theorem stepped_pays (ih : Paid ts.length) :
    Pays (Draft.Costs (held unaryLevel (leading ts))) ts (stepped ts) := by
  unfold stepped
  refine (access_pays ih).bind fun target rest h m ht => ?_
  dsimp only
  cases he : take? stepOp? rest with
  | none => exact .pure (ht.lower (by decide)) (List.suffix_refl _)
  | some p =>
    obtain ⟨⟨isDecrement, last⟩, more, h₁⟩ := p
    have hnode : (Draft.node (.increment isDecrement true) (target.span.to last) [target] []).Costs
        (held unaryLevel (leading ts)) (m + 0) :=
      Draft.costs_leftOpen rfl (Nat.le_of_ble_eq_true rfl) (ht.lower (Nat.le_of_ble_eq_true rfl))
        fun _ => by simp [Shape.ownGroups, Draft.allShapes]
    exact .checked fun _ => .pure hnode (suffix_of_take? he).1

theorem unary_pays (ih : Paid ts.length) :
    Pays (Draft.Costs (held unaryLevel (leading ts))) ts (unary ts) := by
  unfold unary
  split
  · exact stepped_pays ih
  · rename_i t more
    have hmore := ih
    change Paid (more.length + 1) at hmore
    split
    · rename_i isDecrement _
      refine .of_suffix ((hmore.unary (by omega)).bind fun target rest h m ht => ?_)
        (List.suffix_cons _ _)
      refine .checked fun htarget => .pure ?_ (List.suffix_refl _)
      have hnode : ∀ span, (Draft.node (.increment isDecrement false) span [target] []).Costs
          (fun _ => false) m :=
        fun _ => Draft.costs_one (fun _ => rfl) (ht.target htarget (Nat.le_of_ble_eq_true rfl))
      exact (hnode _).held rfl (Nat.le_of_ble_eq_true rfl) fun h => absurd h Bool.false_ne_true
    · rename_i op _ _
      refine .of_suffix ((hmore.unary (by omega)).bind fun operand rest h m ho => ?_)
        (List.suffix_cons _ _)
      have hnode : ∀ span, (Draft.node (.unary op) span [operand] []).Costs (fun _ => false) m :=
        fun _ => Draft.costs_one (fun _ => rfl) ho
      exact .pure ((hnode _).held rfl (Nat.le_of_ble_eq_true rfl) fun h => absurd h Bool.false_ne_true)
        (List.suffix_refl _)
    · exact stepped_pays ih

theorem operation_pays (ih : Paid ts.length) {level place : Nat} (hp : place ≤ unaryLevel)
    (hplace : ∀ op : BinaryOp, level ≤ op.precedence → place ≤ op.precedence) :
    Pays (Draft.Costs (held place (leading ts))) ts (operation level ts) := by
  unfold operation
  refine (unary_pays ih).bind fun left rest h m hl => ?_
  have hnext : ¬ Continues (unaryLevel + 1) rest := by
    rintro ⟨_, _, op, -, -, hlt⟩
    have := op.precedence_lt_unaryLevel
    omega
  exact (ih.operationTail (by omega) hp hplace hnext hl).bind fun _ _ _ k hv =>
    .pure hv (List.suffix_refl _)

theorem conjunction_pays (ih : Paid ts.length) :
    Pays (Draft.Costs (held andLevel (leading ts))) ts (conjunction ts) := by
  unfold conjunction
  have hleft : Pays (Draft.Costs (held andLevel (leading ts))) ts (operation 0 ts) :=
    operation_pays ih (by decide) fun op _ => Nat.le_of_lt op.andLevel_lt_precedence
  refine hleft.bind fun left rest h m hl => ?_
  exact (ih.andTail (by omega) hl).bind fun _ _ _ k hv => .pure hv (List.suffix_refl _)

theorem disjunction_pays (ih : Paid ts.length) :
    Pays (Draft.Costs (held orLevel (leading ts))) ts (disjunction ts) := by
  unfold disjunction
  refine (conjunction_pays ih).bind fun left rest h m hl => ?_
  exact (ih.orTail (by omega) (hl.lower (by decide))).bind fun _ _ _ k hv =>
    .pure hv (List.suffix_refl _)

theorem conditional_pays (ih : Paid ts.length) :
    Pays (Draft.Costs (held conditionalLevel (leading ts))) ts (conditional ts) := by
  unfold conditional
  refine (disjunction_pays ih).bind fun condition rest h m hc => ?_
  dsimp only
  cases he : eat? (.mark .question) rest with
  | none => exact .pure (hc.lower (by decide)) (List.suffix_refl _)
  | some p =>
    obtain ⟨_, more, h₁⟩ := p
    refine .of_suffix ((ih.assignment (by omega)).bind fun first rest₁ h₂ j hf => ?_)
      (suffix_of_take? he).1
    refine (expect_pays _ rest₁).next fun _ rest₂ h₃ => ?_
    refine (ih.assignment (by omega)).bind fun second rest₃ h₄ k hs => ?_
    have hnode : (Draft.spanning .conditional condition second [condition, first, second]).Costs
        (held conditionalLevel (leading ts)) (m + (j + k)) :=
      Draft.costs_spanning rfl (by decide) (fun _ => rfl) hc (hf.all.cons hs.all)
    exact .pure (hnode.mono (by omega)) (List.suffix_refl _)

theorem assignment_pays (ih : Paid ts.length) :
    Pays (Draft.Costs (held assignLevel (leading ts))) ts (assignment ts) := by
  unfold assignment
  refine (conditional_pays ih).bind fun target rest h m ht => ?_
  dsimp only
  cases he : take? assignmentKind? rest with
  | none => exact .pure (ht.lower (by decide)) (List.suffix_refl _)
  | some p =>
    obtain ⟨⟨kind, _⟩, more, h₁⟩ := p
    obtain ⟨hsuffix, t, -, hk⟩ := suffix_of_take? he
    have hmore : more <:+ rest := hsuffix
    refine .checked fun htarget => .of_suffix ?_ hmore
    refine (ih.assignment (by omega)).bind fun value rest' h₂ k hv => ?_
    have hleft : target.Costs (held stepLevel (leading ts)) m := ht.target htarget (by decide)
    have hnode : (Draft.spanning kind target value [target, value]).Costs
        (held assignLevel (leading ts)) (m + k) := by
      unfold assignmentKind? at hk
      split at hk <;> cases hk
      all_goals exact Draft.costs_spanning rfl (by decide) (fun _ => rfl) hleft hv.all
    exact .pure hnode (List.suffix_refl _)

theorem expression_pays (ih : Paid ts.length) :
    Pays (Draft.Costs (held commaLevel (leading ts))) ts (expression ts) := by
  unfold expression
  refine (assignment_pays ih).bind fun left rest h m hl => ?_
  exact (ih.commaTail (by omega) (hl.lower (by decide))).bind fun _ _ _ k hv =>
    .pure hv (List.suffix_refl _)

theorem entries_pays (ih : Paid ts.length) : Pays (Draft.AllCost commaLevel) ts (entries ts) := by
  unfold entries
  cases hc : eat? (.mark .closeBrace) ts with
  | some p => exact .pure Draft.allCost_nil (suffix_of_take? hc).1
  | none =>
    refine (entryKey_pays ts).next fun key rest₁ h₁ => ?_
    refine (expect_pays _ rest₁).next fun _ rest₂ h₂ => ?_
    refine (ih.assignment (by omega)).bind fun value rest₃ h₃ m hv => ?_
    have hkey : (Draft.node (.key key.1) key.2 [value] []).Costs (fun _ => false) m :=
      Draft.costs_one (fun _ => rfl) hv
    dsimp only
    cases he : eat? (.mark .comma) rest₃ with
    | some p =>
      obtain ⟨_, more, h₄⟩ := p
      exact .of_suffix ((ih.entries (by omega)).bind fun others rest h k ho =>
        .pure (hkey.statement.cons ho) (List.suffix_refl _)) (suffix_of_take? he).1
    | none =>
      exact (expect_pays _ rest₃).next fun _ _ _ => .pure hkey.statement (List.suffix_refl _)

theorem functionTail_pays (ih : Paid ts.length) (start : Span) :
    Pays (Draft.Costs (chained false true)) ts (functionTail start ts) := by
  unfold functionTail
  refine (optionalName_pays ts).next fun name rest₁ h₁ => ?_
  refine .expected fun span rest₂ h₂ => ?_
  refine (parameters_opened span rest₂).bind fun params rest₃ h₃ m hp => ?_
  refine (ih.block (by omega)).bind fun body rest₄ h₄ k hb => ?_
  have hnode : (Draft.node (.function name params) start [body] []).Costs (fun _ => false)
      ((!params.isEmpty).toNat + k + 0) :=
    Draft.costs_uniform (fun _ => rfl) rfl rfl hb.statement Draft.allCost_nil
  exact .pure ((hnode.chained rfl (Nat.le_of_ble_eq_true rfl) fun _ => rfl).mono (by omega)) (List.suffix_refl _)

end Expressions

end Hoist
