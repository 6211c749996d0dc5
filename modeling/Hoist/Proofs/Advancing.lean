import Hoist.Proofs.Data
import Hoist.Proofs.Reading

namespace Hoist

/-- The token that a message says was found where another one was expected. -/
def Cause.found? : Cause → Option (Option TokenKind)
  | .expected _ found | .expectedName found | .expectedPropertyName found
  | .expectedExpression found | .expectedClause found => some found
  | _ => none

theorem Cause.category_of_found? {cause : Cause} {found : Option TokenKind}
    (h : cause.found? = some found) : cause.category = .program := by
  unfold found? at h
  split at h
  all_goals first | rfl | cases h

/-- A draft is what one of the readers whose results are assigned to makes of the front of a run of
tokens. -/
def Draft.ReadFrom (ts : List Token) (d : Draft) : Prop :=
  ∃ rest h, conditional ts = .ok ⟨d, rest, h⟩ ∨ unary ts = .ok ⟨d, rest, h⟩ ∨
    access ts = .ok ⟨d, rest, h⟩

/-- A fault lies in a run of tokens: it is about the token in front of a rest of them, which its
message names, or about a target that was read from such a rest. -/
inductive Fault.In (ts : List Token) : Fault → Prop
  | found {cause : Cause} {rest : List Token} (hs : rest <:+ ts)
    (hc : cause.found? = some (rest.head?.map Token.kind)) :
    Fault.In ts ⟨cause, rest.head?.map Token.span⟩
  | target {use : TargetUse} {target : Draft} {start : List Token} (hs : start <:+ ts)
    (ht : target.ReadFrom start) : Fault.In ts ⟨.badTarget use target.kind, some target.span⟩

theorem Fault.In.of_suffix {fault : Fault} {ts rest : List Token} (h : fault.In rest)
    (hs : rest <:+ ts) : fault.In ts := by
  cases h with
  | found hs' hc => exact .found (hs'.trans hs) hc
  | target hs' ht => exact .target (hs'.trans hs) ht

theorem Fault.In.category {fault : Fault} {ts : List Token} (h : fault.In ts) :
    fault.cause.category = .program := by
  cases h with
  | found _ hc => exact Cause.category_of_found? hc
  | target => rfl

/-- What is read from the front of some tokens leaves a rest of them. Where nothing is read the fault
lies in them. -/
def Advances {α : Type} {n : Nat} (ts : List Token) : Parse α n → Prop
  | .ok r => r.rest <:+ ts
  | .error fault => fault.In ts

namespace Advances

variable {α β : Type} {n m : Nat} {ts rest : List Token}

theorem of_suffix {x : Parse α n} (h : Advances rest x) (hs : rest <:+ ts) : Advances ts x := by
  cases x with
  | error fault => exact Fault.In.of_suffix h hs
  | ok r => exact List.IsSuffix.trans h hs

/-- A token that is passed. -/
theorem skip {t : Token} {x : Parse α n} (h : Advances ts x) : Advances (t :: ts) x :=
  h.of_suffix (List.suffix_cons t ts)

theorem pure {a : α} {h : ts.length < n} : Advances ts (.ok ⟨a, ts, h⟩) := List.suffix_refl ts

theorem unexpected {cause : Option TokenKind → Cause}
    (hc : ∀ found, (cause found).found? = some found) :
    Advances ts (Hoist.unexpected ts cause : Parse α n) :=
  Fault.In.found (List.suffix_refl ts) (hc _)

/-- One part is read after the other, which may speak of what was read first. -/
theorem bind_of_eq {x : Parse α n} {f : Parsed α n → Parse β m} (hx : Advances ts x)
    (hf : ∀ a rest h, x = .ok ⟨a, rest, h⟩ → rest <:+ ts → Advances ts (f ⟨a, rest, h⟩)) :
    Advances ts (x >>= f) := by
  cases x with
  | error fault => exact hx
  | ok r => exact hf r.value r.rest r.shorter rfl hx

/-- One part is read after the other. -/
theorem bind {x : Parse α n} {f : Parsed α n → Parse β m} (hx : Advances ts x)
    (hf : ∀ a rest h, Advances rest (f ⟨a, rest, h⟩)) : Advances ts (x >>= f) :=
  hx.bind_of_eq fun a rest h _ hs => (hf a rest h).of_suffix hs

/-- An optional token. -/
theorem taken {γ : Type} {f : TokenKind → Option γ} {a : γ × Span}
    {h : rest.length < ts.length} {x : Parse α n} (ht : take? f ts = some ⟨a, rest, h⟩)
    (hx : Advances rest x) : Advances ts x :=
  hx.of_suffix (suffix_of_take? ht).1

/-- A target that is refused was read from the tokens. -/
theorem checked {use : TargetUse} {target : Draft} {x : Parse α n} (ht : target.ReadFrom ts)
    (h : Advances ts x) : Advances ts (do checkTarget use target; x) := by
  unfold checkTarget
  split
  · exact h
  · exact Fault.In.target (List.suffix_refl ts) ht

end Advances

theorem expect_advances (kind : TokenKind) (ts : List Token) : Advances ts (expect kind ts) := by
  unfold expect
  split
  · split
    · exact .skip .pure
    · exact .unexpected fun _ => rfl
  · exact .unexpected fun _ => rfl

theorem expectName_advances (ts : List Token) : Advances ts (expectName ts) := by
  unfold expectName
  split
  · exact .skip .pure
  · exact .unexpected fun _ => rfl

theorem propertyName_advances (ts : List Token) : Advances ts (propertyName ts) := by
  unfold propertyName
  split
  · exact .skip .pure
  · exact .skip .pure
  · exact .unexpected fun _ => rfl

theorem entryKey_advances (ts : List Token) : Advances ts (entryKey ts) := by
  unfold entryKey
  split
  · exact .skip .pure
  · exact .skip .pure
  · exact propertyName_advances _

theorem statementEnd_advances (ts : List Token) : Advances ts (statementEnd ts) := by
  unfold statementEnd
  split
  · exact .skip .pure
  · exact .pure
  · exact .pure
  · exact .unexpected fun _ => rfl

theorem optionalName_advances (ts : List Token) : Advances ts (optionalName ts) := by
  unfold optionalName
  split
  · exact .skip .pure
  · exact .pure

theorem parameters_advances (ts : List Token) : Advances ts (parameters ts) := by
  fun_induction parameters ts with
  | case1 => exact .skip .pure
  | case2 _ _ _ _ ih => exact .skip (.skip (ih.bind fun _ _ _ => .pure))
  | case3 => exact .skip ((expect_advances _ _).bind fun _ _ _ => .pure)
  | case4 => exact .unexpected fun _ => rfl

/-- What is read from runs of tokens that are shorter than a bound leaves a rest of them, or a fault
that lies in them. -/
structure Advancing (n : Nat) : Prop where
  expression : ∀ {ts}, ts.length < n → Advances ts (expression ts)
  commaTail : ∀ left {ts}, ts.length < n → Advances ts (commaTail left ts)
  assignment : ∀ {ts}, ts.length < n → Advances ts (assignment ts)
  orTail : ∀ left {ts}, ts.length < n → Advances ts (orTail left ts)
  conjunction : ∀ {ts}, ts.length < n → Advances ts (conjunction ts)
  andTail : ∀ left {ts}, ts.length < n → Advances ts (andTail left ts)
  operation : ∀ level {ts}, ts.length < n → Advances ts (operation level ts)
  operationTail : ∀ level left {ts}, ts.length < n → Advances ts (operationTail level left ts)
  unary : ∀ {ts}, ts.length < n → Advances ts (unary ts)
  accessTail : ∀ calls left {ts}, ts.length < n → Advances ts (accessTail calls left ts)
  operand : ∀ {ts}, ts.length < n → Advances ts (operand ts)
  items : ∀ close {ts}, ts.length < n → Advances ts (items close ts)
  entries : ∀ {ts}, ts.length < n → Advances ts (entries ts)
  functionTail : ∀ start {ts}, ts.length < n → Advances ts (functionTail start ts)
  block : ∀ {ts}, ts.length < n → Advances ts (block ts)
  statements : ∀ ends {ts}, ts.length < n → Advances ts (statements ends ts)
  body : ∀ {ts}, ts.length < n → Advances ts (body ts)
  header : ∀ {ts}, ts.length < n → Advances ts (header ts)
  declarators : ∀ {ts}, ts.length < n → Advances ts (declarators ts)
  declarator : ∀ {ts}, ts.length < n → Advances ts (declarator ts)
  initializer : ∀ start {ts}, ts.length < n → Advances ts (initializer start ts)
  optional : ∀ start close {ts}, ts.length < n → Advances ts (optional start close ts)
  clauses : ∀ {ts}, ts.length < n → Advances ts (clauses ts)
  statement : ∀ {ts}, ts.length < n → Advances ts (statement ts)

section Expressions

variable {ts : List Token}

theorem commaTail_advances (ih : Advancing ts.length) (left : Draft) :
    Advances ts (commaTail left ts) := by
  unfold commaTail
  split
  · rename_i more
    change Advancing (more.length + 1) at ih
    refine .skip ((ih.assignment (by omega)).bind fun right rest h => ?_)
    exact (ih.commaTail _ (by omega)).bind fun _ _ _ => .pure
  · exact .pure

theorem orTail_advances (ih : Advancing ts.length) (left : Draft) :
    Advances ts (orTail left ts) := by
  unfold orTail
  split
  · rename_i more
    change Advancing (more.length + 1) at ih
    refine .skip ((ih.conjunction (by omega)).bind fun right rest h => ?_)
    exact (ih.orTail _ (by omega)).bind fun _ _ _ => .pure
  · exact .pure

theorem andTail_advances (ih : Advancing ts.length) (left : Draft) :
    Advances ts (andTail left ts) := by
  unfold andTail
  split
  · rename_i more
    change Advancing (more.length + 1) at ih
    refine .skip ((ih.operation 0 (by omega)).bind fun right rest h => ?_)
    exact (ih.andTail _ (by omega)).bind fun _ _ _ => .pure
  · exact .pure

theorem operationTail_advances (ih : Advancing ts.length) (level : Nat) (left : Draft) :
    Advances ts (operationTail level left ts) := by
  unfold operationTail
  split
  · exact .pure
  · rename_i t more
    change Advancing (more.length + 1) at ih
    split
    · exact .pure
    · split
      · exact .pure
      · refine .skip ((ih.operation _ (by omega)).bind fun right rest h => ?_)
        exact (ih.operationTail _ _ (by omega)).bind fun _ _ _ => .pure

theorem items_advances (ih : Advancing ts.length) (close : Mark)
    (hassign : Advances ts (assignment ts)) : Advances ts (items close ts) := by
  unfold items
  cases hc : eat? (.mark close) ts with
  | some p => exact .taken hc .pure
  | none =>
    refine hassign.bind fun item rest h => ?_
    dsimp only
    cases he : eat? (.mark .comma) rest with
    | some p =>
      obtain ⟨_, more, hm⟩ := p
      exact .taken he ((ih.items close (by omega)).bind fun _ _ _ => .pure)
    | none => exact (expect_advances _ rest).bind fun _ _ _ => .pure

theorem accessTail_advances (ih : Advancing ts.length) (calls : Bool) (left : Draft) :
    Advances ts (accessTail calls left ts) := by
  unfold accessTail
  split
  · rename_i more
    change Advancing (more.length + 1) at ih
    refine .skip ((propertyName_advances more).bind fun p rest h => ?_)
    exact (ih.accessTail calls _ (by omega)).bind fun _ _ _ => .pure
  · rename_i more
    change Advancing (more.length + 1) at ih
    refine .skip ((ih.expression (by omega)).bind fun key rest h => ?_)
    refine (expect_advances _ rest).bind fun last rest' h' => ?_
    exact (ih.accessTail calls _ (by omega)).bind fun _ _ _ => .pure
  · rename_i more
    change Advancing (more.length + 1) at ih
    split
    · refine .skip ((ih.items _ (by omega)).bind fun arguments rest h => ?_)
      exact (ih.accessTail _ _ (by omega)).bind fun _ _ _ => .pure
    · exact .pure
  · exact .pure

theorem primary_advances (ih : Advancing ts.length) : Advances ts (primary ts) := by
  unfold primary
  split
  · rename_i more
    change Advancing (more.length + 1) at ih
    refine .skip ((ih.expression (by omega)).bind fun value rest h => ?_)
    exact (expect_advances _ rest).bind fun _ _ _ => .pure
  · rename_i more
    change Advancing (more.length + 1) at ih
    exact .skip ((ih.items _ (by omega)).bind fun _ _ _ => .pure)
  · rename_i more
    change Advancing (more.length + 1) at ih
    exact .skip ((ih.entries (by omega)).bind fun _ _ _ => .pure)
  · rename_i more
    change Advancing (more.length + 1) at ih
    exact .skip ((ih.functionTail _ (by omega)).bind fun _ _ _ => .pure)
  · split
    · exact .skip .pure
    · exact .unexpected fun _ => rfl
  · exact .unexpected fun _ => rfl

theorem operand_advances (ih : Advancing ts.length) : Advances ts (operand ts) := by
  unfold operand
  split
  · rename_i more
    change Advancing (more.length + 1) at ih
    refine .skip ((ih.operand (by omega)).bind fun base rest₁ h₁ => ?_)
    refine (ih.accessTail false base (by omega)).bind fun callee rest₂ h₂ => ?_
    dsimp only
    cases he : eat? (.mark .openParen) rest₂ with
    | none => exact .pure
    | some p =>
      obtain ⟨_, more', h₃⟩ := p
      exact .taken he ((ih.items _ (by omega)).bind fun _ _ _ => .pure)
  · exact primary_advances ih

theorem access_advances (ih : Advancing ts.length) : Advances ts (access ts) := by
  unfold access
  refine (operand_advances ih).bind fun base rest h => ?_
  exact (ih.accessTail true base (by omega)).bind fun _ _ _ => .pure

theorem stepped_advances (ih : Advancing ts.length) : Advances ts (stepped ts) := by
  unfold stepped
  -- A refused target is blamed, so that what was read has to be known, not only that it was read.
  refine (access_advances ih).bind_of_eq fun target rest h htarget hs => ?_
  dsimp only
  cases he : take? stepOp? rest with
  | none => exact Advances.pure.of_suffix hs
  | some p =>
    exact .checked ⟨rest, h, .inr (.inr htarget)⟩
      ((Advances.taken he .pure).of_suffix hs)

theorem unary_advances (ih : Advancing ts.length) : Advances ts (unary ts) := by
  unfold unary
  split
  · exact stepped_advances ih
  · rename_i t more
    have hmore := ih
    change Advancing (more.length + 1) at hmore
    split
    · refine .skip ((hmore.unary (by omega)).bind_of_eq fun target rest h htarget hs => ?_)
      exact .checked ⟨rest, h, .inr (.inl htarget)⟩
        (Advances.pure.of_suffix hs)
    · exact .skip ((hmore.unary (by omega)).bind fun _ _ _ => .pure)
    · exact stepped_advances ih

theorem operation_advances (ih : Advancing ts.length) (level : Nat) :
    Advances ts (operation level ts) := by
  unfold operation
  refine (unary_advances ih).bind fun left rest h => ?_
  exact (ih.operationTail level left (by omega)).bind fun _ _ _ => .pure

theorem conjunction_advances (ih : Advancing ts.length) : Advances ts (conjunction ts) := by
  unfold conjunction
  refine (operation_advances ih 0).bind fun left rest h => ?_
  exact (ih.andTail left (by omega)).bind fun _ _ _ => .pure

theorem disjunction_advances (ih : Advancing ts.length) : Advances ts (disjunction ts) := by
  unfold disjunction
  refine (conjunction_advances ih).bind fun left rest h => ?_
  exact (ih.orTail left (by omega)).bind fun _ _ _ => .pure

theorem conditional_advances (ih : Advancing ts.length) : Advances ts (conditional ts) := by
  unfold conditional
  refine (disjunction_advances ih).bind fun condition rest h => ?_
  dsimp only
  cases he : eat? (.mark .question) rest with
  | none => exact .pure
  | some p =>
    obtain ⟨_, more, h₁⟩ := p
    refine .taken he ((ih.assignment (by omega)).bind fun first rest₁ h₂ => ?_)
    refine (expect_advances _ rest₁).bind fun _ rest₂ h₃ => ?_
    exact (ih.assignment (by omega)).bind fun _ _ _ => .pure

theorem assignment_advances (ih : Advancing ts.length) : Advances ts (assignment ts) := by
  unfold assignment
  refine (conditional_advances ih).bind_of_eq fun target rest h htarget hs => ?_
  dsimp only
  cases he : take? assignmentKind? rest with
  | none => exact Advances.pure.of_suffix hs
  | some p =>
    obtain ⟨_, more, h₁⟩ := p
    refine .checked ⟨rest, h, .inl htarget⟩ (.of_suffix ?_ hs)
    exact .taken he ((ih.assignment (by omega)).bind fun _ _ _ => .pure)

theorem expression_advances (ih : Advancing ts.length) : Advances ts (expression ts) := by
  unfold expression
  refine (assignment_advances ih).bind fun left rest h => ?_
  exact (ih.commaTail left (by omega)).bind fun _ _ _ => .pure

theorem entries_advances (ih : Advancing ts.length) : Advances ts (entries ts) := by
  unfold entries
  cases hc : eat? (.mark .closeBrace) ts with
  | some p => exact .taken hc .pure
  | none =>
    refine (entryKey_advances ts).bind fun key rest₁ h₁ => ?_
    refine (expect_advances _ rest₁).bind fun _ rest₂ h₂ => ?_
    refine (ih.assignment (by omega)).bind fun value rest₃ h₃ => ?_
    dsimp only
    cases he : eat? (.mark .comma) rest₃ with
    | some p =>
      obtain ⟨_, more, h₄⟩ := p
      exact .taken he ((ih.entries (by omega)).bind fun _ _ _ => .pure)
    | none => exact (expect_advances _ rest₃).bind fun _ _ _ => .pure

theorem functionTail_advances (ih : Advancing ts.length) (start : Span) :
    Advances ts (functionTail start ts) := by
  unfold functionTail
  refine (optionalName_advances ts).bind fun name rest₁ h₁ => ?_
  refine (expect_advances _ rest₁).bind fun _ rest₂ h₂ => ?_
  refine (parameters_advances rest₂).bind fun params rest₃ h₃ => ?_
  exact (ih.block (by omega)).bind fun _ _ _ => .pure

end Expressions

section Statements

variable {ts : List Token}

theorem statements_advances (ih : Advancing ts.length) (ends : TokenKind → Bool)
    (hstatement : Advances ts (statement ts)) : Advances ts (statements ends ts) := by
  unfold statements
  split
  · exact .pure
  · split
    · exact .pure
    · refine hstatement.bind fun first rest h => ?_
      exact (ih.statements ends (by omega)).bind fun _ _ _ => .pure

theorem block_advances (ih : Advancing ts.length) : Advances ts (block ts) := by
  unfold block
  refine (expect_advances _ ts).bind fun start rest₁ h₁ => ?_
  refine (ih.statements _ (by omega)).bind fun inside rest₂ h₂ => ?_
  exact (expect_advances _ rest₂).bind fun _ _ _ => .pure

theorem body_advances (ih : Advancing ts.length) (hstatement : Advances ts (statement ts)) :
    Advances ts (body ts) := by
  unfold body
  split
  · exact block_advances ih
  · exact hstatement.bind fun _ _ _ => .pure
  · exact .unexpected fun _ => rfl

theorem header_advances (ih : Advancing ts.length) : Advances ts (header ts) := by
  unfold header
  refine (expect_advances _ ts).bind fun _ rest₁ h₁ => ?_
  refine (ih.expression (by omega)).bind fun value rest₂ h₂ => ?_
  exact (expect_advances _ rest₂).bind fun _ _ _ => .pure

theorem declarator_advances (ih : Advancing ts.length) : Advances ts (declarator ts) := by
  unfold declarator
  refine (expectName_advances ts).bind fun name rest₁ h₁ => ?_
  dsimp only
  cases he : eat? (.mark .assign) rest₁ with
  | none => exact .pure
  | some p =>
    obtain ⟨_, more, h₂⟩ := p
    exact .taken he ((ih.assignment (by omega)).bind fun _ _ _ => .pure)

theorem declarators_advances (ih : Advancing ts.length) : Advances ts (declarators ts) := by
  unfold declarators
  refine (declarator_advances ih).bind fun first rest₁ h₁ => ?_
  dsimp only
  cases he : eat? (.mark .comma) rest₁ with
  | none => exact .pure
  | some p =>
    obtain ⟨_, more, h₂⟩ := p
    exact .taken he ((ih.declarators (by omega)).bind fun _ _ _ => .pure)

theorem initializer_advances (ih : Advancing ts.length) (start : Span) :
    Advances ts (initializer start ts) := by
  unfold initializer
  split
  · exact .skip .pure
  · rename_i more
    change Advancing (more.length + 1) at ih
    refine .skip ((ih.declarators (by omega)).bind fun names rest₁ h₁ => ?_)
    exact (expect_advances _ rest₁).bind fun _ _ _ => .pure
  · refine (expression_advances ih).bind fun value rest₁ h₁ => ?_
    exact (expect_advances _ rest₁).bind fun _ _ _ => .pure

theorem optional_advances (ih : Advancing ts.length) (start : Span) (close : Mark) :
    Advances ts (optional start close ts) := by
  unfold optional
  cases he : eat? (.mark close) ts with
  | some p => exact .taken he .pure
  | none =>
    refine (expression_advances ih).bind fun value rest₁ h₁ => ?_
    exact (expect_advances _ rest₁).bind fun _ _ _ => .pure

theorem clauses_advances (ih : Advancing ts.length) : Advances ts (clauses ts) := by
  unfold clauses
  split
  · rename_i start more
    change Advancing (more.length + 1) at ih
    refine .skip ((ih.expression (by omega)).bind fun test rest₁ h₁ => ?_)
    refine (expect_advances _ rest₁).bind fun _ rest₂ h₂ => ?_
    refine (ih.statements _ (by omega)).bind fun inside rest₃ h₃ => ?_
    exact (ih.clauses (by omega)).bind fun _ _ _ => .pure
  · rename_i start more
    change Advancing (more.length + 1) at ih
    refine .skip ((expect_advances _ more).bind fun _ rest₁ h₁ => ?_)
    refine (ih.statements _ (by omega)).bind fun inside rest₂ h₂ => ?_
    exact (ih.clauses (by omega)).bind fun _ _ _ => .pure
  · exact .skip .pure
  · exact .unexpected fun _ => rfl

theorem statement_advances (ih : Advancing ts.length) : Advances ts (statement ts) := by
  unfold statement
  split
  · exact block_advances ih
  · rename_i more
    change Advancing (more.length + 1) at ih
    refine .skip ((ih.declarators (by omega)).bind fun names rest₁ h₁ => ?_)
    exact (statementEnd_advances rest₁).bind fun _ _ _ => .pure
  · rename_i start more
    change Advancing (more.length + 1) at ih
    refine .skip ((ih.header (by omega)).bind fun condition rest₁ h₁ => ?_)
    refine (ih.body (by omega)).bind fun first rest₂ h₂ => ?_
    dsimp only
    cases he : eat? (.keyword .else_) rest₂ with
    | none => exact .pure
    | some p =>
      obtain ⟨_, more', h₃⟩ := p
      exact .taken he ((ih.body (by omega)).bind fun _ _ _ => .pure)
  · rename_i start more
    change Advancing (more.length + 1) at ih
    refine .skip ((ih.header (by omega)).bind fun condition rest₁ h₁ => ?_)
    exact (ih.body (by omega)).bind fun _ _ _ => .pure
  · rename_i start more
    change Advancing (more.length + 1) at ih
    refine .skip ((ih.body (by omega)).bind fun inside rest₁ h₁ => ?_)
    refine (expect_advances _ rest₁).bind fun _ rest₂ h₂ => ?_
    refine (ih.header (by omega)).bind fun condition rest₃ h₃ => ?_
    exact (statementEnd_advances rest₃).bind fun _ _ _ => .pure
  · rename_i start more
    change Advancing (more.length + 1) at ih
    refine .skip ((expect_advances _ more).bind fun _ rest₁ h₁ => ?_)
    refine (ih.initializer start (by omega)).bind fun first rest₂ h₂ => ?_
    refine (ih.optional start _ (by omega)).bind fun condition rest₃ h₃ => ?_
    refine (ih.optional start _ (by omega)).bind fun update rest₄ h₄ => ?_
    exact (ih.body (by omega)).bind fun _ _ _ => .pure
  · rename_i start more
    change Advancing (more.length + 1) at ih
    refine .skip ((ih.header (by omega)).bind fun value rest₁ h₁ => ?_)
    refine (expect_advances _ rest₁).bind fun _ rest₂ h₂ => ?_
    exact (ih.clauses (by omega)).bind fun _ _ _ => .pure
  · rename_i start more
    change Advancing (more.length + 1) at ih
    split
    · exact .skip ((statementEnd_advances more).bind fun _ _ _ => .pure)
    · refine .skip ((ih.expression (by omega)).bind fun value rest₁ h₁ => ?_)
      exact (statementEnd_advances rest₁).bind fun _ _ _ => .pure
  · rename_i start more
    refine .skip ((optionalName_advances more).bind fun label rest₁ h₁ => ?_)
    exact (statementEnd_advances rest₁).bind fun _ _ _ => .pure
  · rename_i start more
    refine .skip ((optionalName_advances more).bind fun label rest₁ h₁ => ?_)
    exact (statementEnd_advances rest₁).bind fun _ _ _ => .pure
  · rename_i start more
    change Advancing (more.length + 1) at ih
    refine .skip ((ih.expression (by omega)).bind fun value rest₁ h₁ => ?_)
    exact (statementEnd_advances rest₁).bind fun _ _ _ => .pure
  · rename_i start more
    change Advancing (more.length + 1) at ih
    exact .skip ((ih.functionTail _ (by omega)).bind fun _ _ _ => .pure)
  · exact .skip .pure
  · rename_i name start _ t more
    change Advancing (more.length + 1 + 1 + 1) at ih
    refine .skip (.skip ((ih.statement ?_).bind fun inside rest h => .pure))
    simp only [List.length_cons]
    omega
  · exact .skip (.skip (.unexpected fun _ => rfl))
  · refine (expression_advances ih).bind fun value rest₁ h₁ => ?_
    exact (statementEnd_advances rest₁).bind fun _ _ _ => .pure
  · exact .unexpected fun _ => rfl

end Statements

/-- What is read from runs of tokens of any length leaves a rest of them, or a fault that lies in
them. -/
theorem advancing (n : Nat) : Advancing n := by
  induction n using Nat.strongRecOn with
  | _ n ih =>
    exact {
      expression := fun h => expression_advances (ih _ h)
      commaTail := fun left _ h => commaTail_advances (ih _ h) left
      assignment := fun h => assignment_advances (ih _ h)
      orTail := fun left _ h => orTail_advances (ih _ h) left
      conjunction := fun h => conjunction_advances (ih _ h)
      andTail := fun left _ h => andTail_advances (ih _ h) left
      operation := fun level _ h => operation_advances (ih _ h) level
      operationTail := fun level left _ h => operationTail_advances (ih _ h) level left
      unary := fun h => unary_advances (ih _ h)
      accessTail := fun calls left _ h => accessTail_advances (ih _ h) calls left
      operand := fun h => operand_advances (ih _ h)
      items := fun close _ h => items_advances (ih _ h) close (assignment_advances (ih _ h))
      entries := fun h => entries_advances (ih _ h)
      functionTail := fun start _ h => functionTail_advances (ih _ h) start
      block := fun h => block_advances (ih _ h)
      statements := fun ends _ h =>
        statements_advances (ih _ h) ends (statement_advances (ih _ h))
      body := fun h => body_advances (ih _ h) (statement_advances (ih _ h))
      header := fun h => header_advances (ih _ h)
      declarators := fun h => declarators_advances (ih _ h)
      declarator := fun h => declarator_advances (ih _ h)
      initializer := fun start _ h => initializer_advances (ih _ h) start
      optional := fun start close _ h => optional_advances (ih _ h) start close
      clauses := fun h => clauses_advances (ih _ h)
      statement := fun h => statement_advances (ih _ h) }

end Hoist
