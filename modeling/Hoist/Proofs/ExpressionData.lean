import Hoist.Proofs.Data
import Hoist.Proofs.Opening

namespace Hoist

section Refusals

variable {k : TokenKind} {ts : List Token}

theorem expectMark_refuses {mark : Mark} (hm : TokenKind.mark mark ≠ k) :
    Refuses k ts (expectMark mark ts) := by
  intro hc r hr
  unfold expectMark expect at hr
  split at hr
  · split at hr
    · rename_i hk
      rw [List.head?_cons, Option.map_some, hk] at hc
      exact hm (Option.some.inj hc)
    · cases hr
  · cases hr

theorem literal?_eq_none (hk : k.opensOperand = false) : literal? k = none := by
  unfold literal?
  split <;> first | rfl | cases hk

theorem primary_refuses (hk : k.opensOperand = false) : Refuses k ts (primary ts) := by
  intro hc r hr
  unfold primary at hr
  split at hr
  · obtain rfl := Option.some.inj hc
    cases hk
  · obtain rfl := Option.some.inj hc
    cases hk
  · obtain rfl := Option.some.inj hc
    cases hk
  · obtain rfl := Option.some.inj hc
    cases hk
  · rw [Option.some.inj hc, literal?_eq_none hk] at hr
    cases hr
  · cases hc

theorem operand_refuses (hk : k.opensOperand = false) : Refuses k ts (operand ts) := by
  unfold operand
  split
  · intro hc
    obtain rfl := Option.some.inj hc
    cases hk
  · exact primary_refuses hk

theorem stepped_refuses (hk : k.opensOperand = false) : Refuses k ts (stepped ts) := by
  unfold stepped access
  exact (operand_refuses hk).bind.bind

theorem unary_refuses (hk : k.opensOperand = false) : Refuses k ts (unary ts) := by
  unfold unary
  split
  · exact stepped_refuses hk
  · rename_i t more
    split
    · rename_i hstep
      intro hc
      rw [Option.some.inj hc] at hstep
      unfold stepOp? at hstep
      split at hstep <;> first | cases hk | cases hstep
    · rename_i hop
      intro hc
      rw [Option.some.inj hc] at hop
      unfold unaryOp? at hop
      split at hop <;> first | cases hk | cases hop
    · exact stepped_refuses hk

theorem assignment_refuses (hk : k.opensOperand = false) : Refuses k ts (assignment ts) := by
  unfold assignment conditional disjunction conjunction operation
  exact (unary_refuses hk).bind.bind.bind.bind.bind

/-- No expression begins with a token that no operand begins with. -/
theorem expression_refuses (hk : k.opensOperand = false) : Refuses k ts (expression ts) := by
  unfold expression
  exact (assignment_refuses hk).bind

theorem functionTail_refuses {start : Span} : Refuses (.mark .colon) ts (functionTail start ts) := by
  intro hc r hr
  unfold functionTail optionalName at hr
  split at hr
  · cases hc
  · exact (expectMark_refuses (by decide)).bind hc r hr

end Refusals

/-- Whether a token stands between operands or in front of one. -/
def TokenKind.IsOperator (kind : TokenKind) : Prop :=
  ∀ context : Context, context.next kind = .plain ∧ ∀ next, context.keeps next kind = false

theorem isOperator_of_stepOp? {kind : TokenKind} {d : Bool} (h : stepOp? kind = some d) :
    kind.IsOperator := by
  unfold stepOp? at h
  split at h <;> cases h
  all_goals exact fun context => ⟨by cases context <;> rfl, fun _ => rfl⟩

theorem isOperator_of_binaryOp? {kind : TokenKind} {op : BinaryOp} (h : binaryOp? kind = some op) :
    kind.IsOperator := by
  unfold binaryOp? at h
  split at h <;> cases h
  all_goals exact fun context => ⟨by cases context <;> rfl, fun _ => rfl⟩

theorem isOperator_of_assignmentKind? {kind : TokenKind} {k : Kind}
    (h : assignmentKind? kind = some k) : kind.IsOperator := by
  unfold assignmentKind? at h
  split at h <;> cases h
  all_goals exact fun context => ⟨by cases context <;> rfl, fun _ => rfl⟩

theorem isOperator_or : (TokenKind.mark .or_).IsOperator :=
  fun context => ⟨by cases context <;> rfl, fun _ => rfl⟩

theorem isOperator_and : (TokenKind.mark .and_).IsOperator :=
  fun context => ⟨by cases context <;> rfl, fun _ => rfl⟩

theorem isOperator_question : (TokenKind.mark .question).IsOperator :=
  fun context => ⟨by cases context <;> rfl, fun _ => rfl⟩

theorem isOperator_colon : (TokenKind.mark .colon).IsOperator :=
  fun context => ⟨by cases context <;> rfl, fun _ => rfl⟩

theorem isOperator_assign : (TokenKind.mark .assign).IsOperator :=
  fun context => ⟨by cases context <;> rfl, fun _ => rfl⟩

/-- An assignment says nothing besides its operands. -/
theorem silent_of_assignmentKind? {kind : TokenKind} {k : Kind} (h : assignmentKind? kind = some k) :
    k.saidFirst = [] ∧ k.saidLast = [] := by
  unfold assignmentKind? at h
  split at h <;> cases h
  all_goals exact ⟨rfl, rfl⟩

/-- A word in front of an operand is no value. -/
theorem keeps_of_unaryOp? {kind : TokenKind} {op : UnaryOp} {context : Context}
    (h : unaryOp? kind = some op) (hm : context ≠ .member) :
    context.next kind = .plain ∧
      ∀ next, next ≠ some (.mark .colon) → context.keeps next kind = false := by
  unfold unaryOp? at h
  split at h <;> cases h
  case h_1 | h_2 | h_3 => exact ⟨by cases context <;> rfl, fun _ _ => rfl⟩
  all_goals exact ⟨by cases context <;> rfl, fun _ hn => Context.keeps_word rfl hm hn⟩

/-- A literal says what it is. -/
theorem keeps_of_literal? {kind : TokenKind} {k : Kind} (h : literal? kind = some k)
    (context : Context) : context.next kind = .plain ∧ (∀ next, context.keeps next kind = true) ∧
      ∃ d, k.saidFirst = [d] ∧ k.saidLast = [] ∧ Says d kind := by
  unfold literal? at h
  split at h <;> cases h
  case h_1 => exact ⟨by cases context <;> rfl, fun _ => rfl, _, rfl, rfl, .name _⟩
  case h_2 => exact ⟨by cases context <;> rfl, fun _ => rfl, _, rfl, rfl, .number _⟩
  case h_3 => exact ⟨by cases context <;> rfl, fun _ => rfl, _, rfl, rfl, .text _⟩
  all_goals exact ⟨by cases context <;> rfl, fun _ => rfl, _, rfl, rfl, .word _⟩

namespace Context

/-- What stands behind most marks does not depend on what stands in front of them. -/
theorem next_openParen (context : Context) : context.next (.mark .openParen) = .plain := by
  cases context <;> rfl

theorem next_openBracket (context : Context) : context.next (.mark .openBracket) = .plain := by
  cases context <;> rfl

theorem next_closeBracket (context : Context) : context.next (.mark .closeBracket) = .plain := by
  cases context <;> rfl

theorem next_closeParen (context : Context) : context.next (.mark .closeParen) = .closed := by
  cases context <;> rfl

theorem next_closeBrace (context : Context) : context.next (.mark .closeBrace) = .plain := by
  cases context <;> rfl

theorem next_comma (context : Context) : context.next (.mark .comma) = .entry := by
  cases context <;> rfl

theorem next_semicolon (context : Context) : context.next (.mark .semicolon) = .plain := by
  cases context <;> rfl

theorem next_dot (context : Context) : context.next (.mark .dot) = .member := by
  cases context <;> rfl

theorem next_word (context : Context) (w : Keyword) : context.next (.keyword w) = .plain := by
  cases context <;> rfl

theorem plain_admits (ts : List Token) : Context.plain.Admits ts :=
  admits_of (by decide) (by decide) ts

theorem entry_admits (ts : List Token) : Context.entry.Admits ts :=
  admits_of (by decide) (by decide) ts

end Context

/-- What is read from runs of tokens that are shorter than a bound says what the tokens say. -/
structure Carrying (n : Nat) : Prop where
  expression : ∀ {context ts}, ts.length < n → context.Admits ts →
    Carries [] Draft.data context ts (·.isQuiet) (expression ts)
  commaTail : ∀ {context} left {ts}, ts.length < n → context.isQuiet →
    Carries left.data Draft.data context ts (·.isQuiet) (commaTail left ts)
  assignment : ∀ {context ts}, ts.length < n → context.Admits ts →
    Carries [] Draft.data context ts (·.isQuiet) (assignment ts)
  orTail : ∀ {context} left {ts}, ts.length < n → context.isQuiet →
    Carries left.data Draft.data context ts (·.isQuiet) (orTail left ts)
  conjunction : ∀ {context ts}, ts.length < n → context.Admits ts →
    Carries [] Draft.data context ts (·.isQuiet) (conjunction ts)
  andTail : ∀ {context} left {ts}, ts.length < n → context.isQuiet →
    Carries left.data Draft.data context ts (·.isQuiet) (andTail left ts)
  operation : ∀ {context} level {ts}, ts.length < n → context.Admits ts →
    Carries [] Draft.data context ts (·.isQuiet) (operation level ts)
  operationTail : ∀ {context} level left {ts}, ts.length < n → context.isQuiet →
    Carries left.data Draft.data context ts (·.isQuiet) (operationTail level left ts)
  unary : ∀ {context ts}, ts.length < n → context.Admits ts →
    Carries [] Draft.data context ts (·.isQuiet) (unary ts)
  accessTail : ∀ {context} calls left {ts}, ts.length < n → context.isQuiet →
    Carries left.data Draft.data context ts (·.isQuiet) (accessTail calls left ts)
  operand : ∀ {context ts}, ts.length < n → context.Admits ts →
    Carries [] Draft.data context ts (·.isQuiet) (operand ts)
  items : ∀ {context close ts}, ts.length < n → close = .closeParen ∨ close = .closeBracket →
    context ≠ .member → context ≠ .closed →
    Carries [] Draft.allData context ts (·.isQuiet) (items close ts)
  entries : ∀ {ts}, ts.length < n →
    Carries [] Draft.allData .entry ts (·.isQuiet) (entries ts)
  functionTail : ∀ start {ts}, ts.length < n →
    Carries [] Draft.data .plain ts (·.isQuiet) (functionTail start ts)
  block : ∀ {context ts}, ts.length < n → context ≠ .member →
    Carries [] Draft.data context ts (·.isQuiet) (block ts)
  statements : ∀ {context ends ts}, ts.length < n → context ≠ .member →
    Carries [] Draft.allData context ts (fun c => c = context ∨ c.isQuiet) (statements ends ts)
  body : ∀ {context ts}, ts.length < n → context ≠ .member →
    Carries [] Draft.data context ts (·.isQuiet) (body ts)
  header : ∀ {context ts}, ts.length < n →
    Carries [] Draft.data context ts (· = .closed) (header ts)
  declarators : ∀ {context ts}, ts.length < n →
    Carries [] Draft.allData context ts (·.isQuiet) (declarators ts)
  declarator : ∀ {context ts}, ts.length < n →
    Carries [] Draft.data context ts (·.isQuiet) (declarator ts)
  initializer : ∀ start {ts}, ts.length < n →
    Carries [] Draft.data .plain ts (· = .plain) (initializer start ts)
  optional : ∀ start close {ts}, ts.length < n →
    (∀ c : Context, c.next (.mark close) = Context.plain.next (.mark close)) →
    Carries [] Draft.data .plain ts (· = Context.plain.next (.mark close)) (optional start close ts)
  clauses : ∀ {context ts}, ts.length < n → context.isQuiet →
    Carries [] Draft.allData context ts (·.isQuiet) (clauses ts)
  statement : ∀ {context ts}, ts.length < n → context ≠ .member →
    Carries [] Draft.data context ts (·.isQuiet) (statement ts)

section Expressions

variable {context : Context} {ts : List Token}

/-- A node over two parts says what they say. -/
theorem Draft.data_two {kind : Kind} {span : Span} {a b : Draft} (hf : kind.saidFirst = [])
    (hl : kind.saidLast = []) : (Draft.node kind span [a, b] []).data = a.data ++ b.data := by
  simp [data_node, allData_cons, allData_nil, hf, hl]

theorem Draft.data_one {kind : Kind} {span : Span} {a : Draft} (hf : kind.saidFirst = [])
    (hl : kind.saidLast = []) : (Draft.node kind span [a] []).data = a.data := by
  simp [data_node, allData_cons, allData_nil, hf, hl]

/-- A node over a first part and others says what they say. -/
theorem Draft.data_applied {kind : Kind} {span : Span} {a : Draft} {ds : List Draft}
    (hf : kind.saidFirst = []) (hl : kind.saidLast = []) :
    (Draft.node kind span [a] ds).data = a.data ++ allData ds := by
  simp [data_node, allData_cons, allData_nil, hf, hl]

theorem Draft.data_list {kind : Kind} {span : Span} {ds : List Draft}
    (hf : kind.saidFirst = []) (hl : kind.saidLast = []) :
    (Draft.node kind span [] ds).data = allData ds := by
  simp [data_node, allData_nil, hf, hl]

theorem commaTail_carries (ih : Carrying ts.length) (left : Draft) (hq : context.isQuiet) :
    Carries left.data Draft.data context ts (·.isQuiet) (commaTail left ts) := by
  unfold commaTail
  split
  · rename_i more
    change Carrying (more.length + 1) at ih
    refine .skip rfl ((ih.assignment (by omega) ?_).bind fun right rest h after ds hr hq => ?_)
    · rw [Context.next_comma]
      exact Context.entry_admits _
    · refine (ih.commaTail _ (by omega) hq).bind fun value rest' h' after' ds' hv hq' => ?_
      refine .pure ?_ hq'
      rw [hv, Draft.spanning, Draft.data_two rfl rfl, hr]
      rfl
  · exact .pure rfl hq

theorem orTail_carries (ih : Carrying ts.length) (left : Draft) (hq : context.isQuiet) :
    Carries left.data Draft.data context ts (·.isQuiet) (orTail left ts) := by
  unfold orTail
  split
  · rename_i more
    change Carrying (more.length + 1) at ih
    refine .skip rfl ((ih.conjunction (by omega) ?_).bind fun right rest h after ds hr hq => ?_)
    · rw [(isOperator_or context).1]
      exact Context.plain_admits _
    · refine (ih.orTail _ (by omega) hq).bind fun value rest' h' after' ds' hv hq' => .pure ?_ hq'
      rw [hv, Draft.spanning, Draft.data_two rfl rfl, hr]
      rfl
  · exact .pure rfl hq

theorem andTail_carries (ih : Carrying ts.length) (left : Draft) (hq : context.isQuiet) :
    Carries left.data Draft.data context ts (·.isQuiet) (andTail left ts) := by
  unfold andTail
  split
  · rename_i more
    change Carrying (more.length + 1) at ih
    refine .skip rfl ((ih.operation 0 (by omega) ?_).bind fun right rest h after ds hr hq => ?_)
    · rw [(isOperator_and context).1]
      exact Context.plain_admits _
    · refine (ih.andTail _ (by omega) hq).bind fun value rest' h' after' ds' hv hq' => .pure ?_ hq'
      rw [hv, Draft.spanning, Draft.data_two rfl rfl, hr]
      rfl
  · exact .pure rfl hq

theorem operationTail_carries (ih : Carrying ts.length) (level : Nat) (left : Draft)
    (hq : context.isQuiet) :
    Carries left.data Draft.data context ts (·.isQuiet) (operationTail level left ts) := by
  unfold operationTail
  split
  · exact .pure rfl hq
  · rename_i t more
    change Carrying (more.length + 1) at ih
    split
    · exact .pure rfl hq
    · rename_i op hop
      split
      · exact .pure rfl hq
      · obtain ⟨hnext, hkeeps⟩ := isOperator_of_binaryOp? hop context
        refine .skip (hkeeps _) ?_
        rw [hnext]
        refine (ih.operation _ (by omega) (Context.plain_admits _)).bind
          fun right rest h after ds hr hq => ?_
        refine (ih.operationTail level _ (by omega) hq).bind
          fun value rest' h' after' ds' hv hq' => .pure ?_ hq'
        rw [hv, Draft.spanning, Draft.data_two rfl rfl, hr]
        rfl

/-- What stands behind an element is a comma or the closing mark. -/
theorem items_carries (ih : Carrying ts.length) {close : Mark}
    (hclose : close = .closeParen ∨ close = .closeBracket)
    (hassign : Carries [] Draft.data context ts (·.isQuiet) (assignment ts)) :
    Carries [] Draft.allData context ts (·.isQuiet) (items close ts) := by
  have hquiet : ∀ c : Context, (c.next (.mark close)).isQuiet = true := by
    rintro c
    obtain rfl | rfl := hclose
    · rw [Context.next_closeParen]
      rfl
    · rw [Context.next_closeBracket]
      rfl
  unfold items
  cases he : eat? (.mark close) ts with
  | some p =>
    exact .eaten he (fun _ => rfl) (.pure rfl (hquiet _))
  | none =>
    refine hassign.bind fun item rest h after ds hi hq => ?_
    dsimp only
    cases he : eat? (.mark .comma) rest with
    | some p =>
      obtain ⟨_, more, hmore⟩ := p
      refine .eaten he (fun _ => rfl) ?_
      rw [Context.next_comma]
      refine (ih.items (by omega) hclose (by decide) (by decide)).bind
        fun others rest' h' after' ds' ho hq' => .pure ?_ hq'
      rw [Draft.allData_cons, hi, ho]
      rfl
    | none =>
      refine .marked fun _ rest' h' => .pure ?_ (hquiet _)
      rw [Draft.allData_cons, hi, Draft.allData_nil, List.append_nil]

theorem accessTail_carries (ih : Carrying ts.length) (calls : Bool) (left : Draft)
    (hq : context.isQuiet) :
    Carries left.data Draft.data context ts (·.isQuiet) (accessTail calls left ts) := by
  unfold accessTail
  split
  · rename_i more
    change Carrying (more.length + 1) at ih
    refine .skip rfl ?_
    rw [Context.next_dot]
    refine propertyName_carries.bind fun p rest h after ds hp hq => ?_
    refine (ih.accessTail calls _ (by omega) hq).bind
      fun value rest' h' after' ds' hv hq' => .pure ?_ hq'
    obtain rfl : ds = [.member p.1] := hp.symm
    rw [hv, Draft.data_node, Draft.allData_cons, Draft.allData_nil]
    simp [Kind.saidFirst, Kind.saidLast]
  · rename_i more
    change Carrying (more.length + 1) at ih
    refine .skip rfl ?_
    rw [Context.next_openBracket]
    refine (ih.expression (by omega) (Context.plain_admits _)).bind
      fun key rest h after ds hk hq => ?_
    refine .marked fun last rest₁ h₁ => ?_
    rw [Context.next_closeBracket]
    refine (ih.accessTail calls _ (by omega) rfl).bind
      fun value rest' h' after' ds' hv hq' => .pure ?_ hq'
    rw [hv, Draft.data_two rfl rfl, hk]
    rfl
  · rename_i more
    change Carrying (more.length + 1) at ih
    split
    · refine .skip rfl ?_
      rw [Context.next_openParen]
      refine (ih.items (by omega) (.inl rfl) (by decide) (by decide)).bind
        fun arguments rest h after ds ha hq => ?_
      refine (ih.accessTail calls _ (by omega) hq).bind
        fun value rest' h' after' ds' hv hq' => .pure ?_ hq'
      rw [hv, Draft.data_applied rfl rfl, ha]
      rfl
    · exact .pure rfl hq
  · exact .pure rfl hq

theorem primary_carries (ih : Carrying ts.length) (ha : context.Admits ts) :
    Carries [] Draft.data context ts (·.isQuiet) (primary ts) := by
  unfold primary
  split
  · rename_i more
    change Carrying (more.length + 1) at ih
    refine .skip rfl ?_
    rw [Context.next_openParen]
    refine (ih.expression (by omega) (Context.plain_admits _)).bind
      fun value rest h after ds hv hq => ?_
    refine .marked fun _ rest' h' => .pure hv ?_
    rw [Context.next_closeParen]
    rfl
  · rename_i more
    change Carrying (more.length + 1) at ih
    refine .skip rfl ?_
    rw [Context.next_openBracket]
    refine (ih.items (by omega) (.inr rfl) (by decide) (by decide)).bind
      fun elements rest h after ds he hq => .pure ?_ hq
    rw [Draft.data_list rfl rfl, he]
  · rename_i more
    change Carrying (more.length + 1) at ih
    have hnext : context.next (.mark .openBrace) = .entry := by
      cases context with
      | closed => exact absurd rfl (ha.2 rfl)
      | member | entry | plain => rfl
    refine .skip rfl ?_
    rw [hnext]
    refine (ih.entries (by omega)).bind fun keys rest h after ds hk hq => .pure ?_ hq
    rw [Draft.data_list rfl rfl, hk]
  · rename_i more
    change Carrying (more.length + 1) at ih
    refine .word rfl ha.1 functionTail_refuses.bind ?_
    exact (ih.functionTail _ (by omega)).bind fun value rest h after ds hv hq => .pure hv hq
  · rename_i t more _ _ _ _
    split
    · rename_i kind hk
      obtain ⟨hnext, hkeeps, d, hfirst, hlast, hsays⟩ := keeps_of_literal? hk context
      refine .keep (hkeeps _) hsays (.pure ?_ ?_)
      · rw [Draft.data_leaf, hfirst, hlast]
        rfl
      · rw [hnext]
        rfl
    · exact .error
  · exact .error

theorem operand_carries (ih : Carrying ts.length) (ha : context.Admits ts) :
    Carries [] Draft.data context ts (·.isQuiet) (operand ts) := by
  unfold operand
  split
  · rename_i more
    change Carrying (more.length + 1) at ih
    refine .word rfl ha.1 (operand_refuses rfl).bind ?_
    refine (ih.operand (by omega) (Context.plain_admits _)).bind
      fun base rest₁ h₁ after₁ ds₁ hb hq₁ => ?_
    refine (ih.accessTail false base (by omega) hq₁).bind
      fun callee rest₂ h₂ after₂ ds₂ hc hq₂ => ?_
    dsimp only
    cases he : eat? (.mark .openParen) rest₂ with
    | none =>
      refine .pure ?_ hq₂
      rw [Draft.data_one rfl rfl, hc, hb]
    | some p =>
      obtain ⟨_, more', h₃⟩ := p
      refine .eaten he (fun _ => rfl) ?_
      rw [Context.next_openParen]
      refine (ih.items (by omega) (.inl rfl) (by decide) (by decide)).bind
        fun arguments rest h after ds ha hq => .pure ?_ hq
      rw [Draft.data_applied rfl rfl, hc, hb, ha]
      rfl
  · exact primary_carries ih ha

theorem access_carries (ih : Carrying ts.length) (ha : context.Admits ts) :
    Carries [] Draft.data context ts (·.isQuiet) (access ts) := by
  unfold access
  refine (operand_carries ih ha).bind fun base rest h after ds hb hq => ?_
  refine (ih.accessTail true base (by omega) hq).bind
    fun value rest' h' after' ds' hv hq' => .pure ?_ hq'
  rw [hv, hb]

theorem stepped_carries (ih : Carrying ts.length) (ha : context.Admits ts) :
    Carries [] Draft.data context ts (·.isQuiet) (stepped ts) := by
  unfold stepped
  refine (access_carries ih ha).bind fun target rest h after ds ht hq => ?_
  dsimp only
  cases he : take? stepOp? rest with
  | none => exact .pure ht hq
  | some p =>
    refine .checked (.taken he fun kind hk => ⟨(isOperator_of_stepOp? hk _).2, .pure ?_ ?_⟩)
    · rw [Draft.data_one rfl rfl, ht]
    · rw [(isOperator_of_stepOp? hk _).1]
      rfl

theorem unary_carries (ih : Carrying ts.length) (ha : context.Admits ts) :
    Carries [] Draft.data context ts (·.isQuiet) (unary ts) := by
  unfold unary
  split
  · exact stepped_carries ih ha
  · rename_i t more
    have hmore := ih
    change Carrying (more.length + 1) at hmore
    split
    · rename_i hstep
      obtain ⟨hnext, hkeeps⟩ := isOperator_of_stepOp? hstep context
      refine .skip (hkeeps _) ?_
      rw [hnext]
      refine (hmore.unary (by omega) (Context.plain_admits _)).bind
        fun target rest h after ds ht hq => .checked (.pure ?_ hq)
      rw [Draft.data_one rfl rfl, ht]
    · rename_i hop
      obtain ⟨hnext, hkeeps⟩ := keeps_of_unaryOp? hop ha.1
      refine .skipWord hkeeps (unary_refuses rfl).bind ?_
      rw [hnext]
      refine (hmore.unary (by omega) (Context.plain_admits _)).bind
        fun operand rest h after ds ho hq => .pure ?_ hq
      rw [Draft.data_one rfl rfl, ho]
    · exact stepped_carries ih ha

theorem operation_carries (ih : Carrying ts.length) (level : Nat) (ha : context.Admits ts) :
    Carries [] Draft.data context ts (·.isQuiet) (operation level ts) := by
  unfold operation
  refine (unary_carries ih ha).bind fun left rest h after ds hl hq => ?_
  refine (ih.operationTail level left (by omega) hq).bind
    fun value rest' h' after' ds' hv hq' => .pure ?_ hq'
  rw [hv, hl]

theorem conjunction_carries (ih : Carrying ts.length) (ha : context.Admits ts) :
    Carries [] Draft.data context ts (·.isQuiet) (conjunction ts) := by
  unfold conjunction
  refine (operation_carries ih 0 ha).bind fun left rest h after ds hl hq => ?_
  refine (ih.andTail left (by omega) hq).bind
    fun value rest' h' after' ds' hv hq' => .pure ?_ hq'
  rw [hv, hl]

theorem disjunction_carries (ih : Carrying ts.length) (ha : context.Admits ts) :
    Carries [] Draft.data context ts (·.isQuiet) (disjunction ts) := by
  unfold disjunction
  refine (conjunction_carries ih ha).bind fun left rest h after ds hl hq => ?_
  refine (ih.orTail left (by omega) hq).bind
    fun value rest' h' after' ds' hv hq' => .pure ?_ hq'
  rw [hv, hl]

theorem conditional_carries (ih : Carrying ts.length) (ha : context.Admits ts) :
    Carries [] Draft.data context ts (·.isQuiet) (conditional ts) := by
  unfold conditional
  refine (disjunction_carries ih ha).bind fun condition rest h after ds hc hq => ?_
  dsimp only
  cases he : eat? (.mark .question) rest with
  | none => exact .pure hc hq
  | some p =>
    obtain ⟨_, more, h₁⟩ := p
    refine .eaten he (fun _ => rfl) ?_
    rw [(isOperator_question _).1]
    refine (ih.assignment (by omega) (Context.plain_admits _)).bind
      fun first rest₁ h₂ after₁ ds₁ hf hq₁ => ?_
    refine .marked fun _ rest₂ h₃ => ?_
    rw [(isOperator_colon _).1]
    refine (ih.assignment (by omega) (Context.plain_admits _)).bind
      fun second rest₃ h₄ after₃ ds₃ hs hq₃ => .pure ?_ hq₃
    simp [Draft.spanning, Draft.data_node, Draft.allData_cons, Draft.allData_nil, hc, hf, hs,
      Kind.saidFirst, Kind.saidLast]

theorem assignment_carries (ih : Carrying ts.length) (ha : context.Admits ts) :
    Carries [] Draft.data context ts (·.isQuiet) (assignment ts) := by
  unfold assignment
  refine (conditional_carries ih ha).bind fun target rest h after ds ht hq => ?_
  dsimp only
  cases he : take? assignmentKind? rest with
  | none => exact .pure ht hq
  | some p =>
    obtain ⟨⟨kind, _⟩, more, h₁⟩ := p
    refine .checked (.taken he fun mark hk => ⟨(isOperator_of_assignmentKind? hk _).2, ?_⟩)
    rw [(isOperator_of_assignmentKind? hk _).1]
    refine (ih.assignment (by omega) (Context.plain_admits _)).bind
      fun value rest' h₂ after' ds' hv hq' => .pure ?_ hq'
    obtain ⟨hfirst, hlast⟩ := silent_of_assignmentKind? hk
    rw [Draft.spanning, Draft.data_two hfirst hlast, ht, hv]
    rfl

theorem expression_carries (ih : Carrying ts.length) (ha : context.Admits ts) :
    Carries [] Draft.data context ts (·.isQuiet) (expression ts) := by
  unfold expression
  refine (assignment_carries ih ha).bind fun left rest h after ds hl hq => ?_
  refine (ih.commaTail left (by omega) hq).bind
    fun value rest' h' after' ds' hv hq' => .pure ?_ hq'
  rw [hv, hl]

theorem entries_carries (ih : Carrying ts.length) :
    Carries [] Draft.allData .entry ts (·.isQuiet) (entries ts) := by
  unfold entries
  cases hc : eat? (.mark .closeBrace) ts with
  | some p => exact .eaten hc (fun _ => rfl) (.pure rfl rfl)
  | none =>
    refine .key (fun key r hr => head_of_expectMark hr) fun key rest₁ h₁ => ?_
    refine .marked fun _ rest₂ h₂ => ?_
    refine (ih.assignment (by omega) (Context.plain_admits _)).bind
      fun value rest₃ h₃ after₃ ds₃ hv hq₃ => ?_
    have hkey : (Draft.node (.key key.1) key.2 [value] []).data = .key key.1 :: ds₃ := by
      simp [Draft.data_node, Draft.allData_cons, Draft.allData_nil, hv, Kind.saidFirst,
        Kind.saidLast]
    dsimp only
    cases he : eat? (.mark .comma) rest₃ with
    | some p =>
      obtain ⟨_, more, h₄⟩ := p
      refine .eaten he (fun _ => rfl) ?_
      rw [Context.next_comma]
      refine (ih.entries (by omega)).bind fun others rest h after ds ho hq => .pure ?_ hq
      simp [Draft.allData_cons, hkey, ho]
    | none =>
      refine .marked fun _ rest₄ h₄ => .pure ?_ ?_
      · simp [Draft.allData_cons, Draft.allData_nil, hkey]
      · rw [Context.next_closeBrace]
        rfl

theorem functionTail_carries (ih : Carrying ts.length) (start : Span) :
    Carries [] Draft.data .plain ts (·.isQuiet) (functionTail start ts) := by
  unfold functionTail
  refine .named rfl fun name rest₁ h₁ after₁ _ => .marked fun _ rest₂ h₂ => ?_
  refine parameters_carries.bind fun params rest₃ h₃ after₃ ds₃ hp hq₃ => ?_
  refine (ih.block (by omega) ?_).bind fun body rest₄ h₄ after₄ ds₄ hb hq₄ => .pure ?_ hq₄
  · rintro rfl
    cases hq₃
  · obtain rfl : ds₃ = _ := hp.symm
    simp [Draft.data_node, Draft.allData_cons, Draft.allData_nil, hb, Kind.saidFirst,
      Kind.saidLast]

end Expressions

end Hoist
