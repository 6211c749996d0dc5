import Hoist.Proofs.ExpressionData
import Hoist.Proofs.Scanning

namespace Hoist

/-- Whether a statement that begins with a token of this kind is no expression and has no label. -/
def TokenKind.opensStatement : TokenKind → Bool
  | .mark .openBrace | .mark .semicolon => true
  | .keyword w => w ∈ [.var, .if_, .while_, .do_, .for_, .switch, .return_, .break_, .continue_,
      .throw, .function]
  | _ => false

section Refusals

variable {k : TokenKind} {ts : List Token}

theorem header_refuses : Refuses (.mark .colon) ts (header ts) := by
  unfold header
  exact (expectMark_refuses (by decide)).bind

theorem declarators_refuses : Refuses (.mark .colon) ts (declarators ts) := by
  intro hc r hr
  unfold declarators declarator expectName at hr
  split at hr
  · cases hc
  · cases hr

theorem statementEnd_refuses : Refuses (.mark .colon) ts (statementEnd ts) := by
  intro hc r hr
  unfold statementEnd at hr
  split at hr
  case h_4 => cases hr
  all_goals cases hc

/-- A label that is left out is not followed by a colon. -/
theorem label_refuses {β : Type} {m : Nat} {f : Parsed (Option String) (ts.length + 1) → Parse β m}
    (hf : ∀ h, Refuses (.mark .colon) ts (f ⟨none, ts, h⟩)) :
    Refuses (.mark .colon) ts (optionalName ts >>= f) := by
  intro hc r hr
  unfold optionalName at hr
  split at hr
  · cases hc
  · exact hf _ hc r hr

/-- No statement begins with a token that neither an operand nor another statement begins with. -/
theorem statement_refuses (hk : k.opensOperand = false) (hs : k.opensStatement = false) :
    Refuses k ts (statement ts) := by
  intro hc r hr
  unfold statement at hr
  split at hr
  case h_14 | h_15 =>
    obtain rfl := Option.some.inj hc
    exact Bool.noConfusion hk
  case h_16 => exact (expression_refuses hk).bind hc r hr
  case h_17 => cases hc
  all_goals
    obtain rfl := Option.some.inj hc
    exact Bool.noConfusion hs

theorem body_refuses (hk : k.opensOperand = false) (hs : k.opensStatement = false) :
    Refuses k ts (body ts) := by
  unfold body
  split
  · intro hc
    obtain rfl := Option.some.inj hc
    cases hs
  · exact (statement_refuses hk hs).bind
  · rintro ⟨⟩

end Refusals

section Statements

variable {context : Context} {ts : List Token}

theorem statements_carries (ih : Carrying ts.length) {ends : TokenKind → Bool}
    (hstatement : Carries [] Draft.data context ts (·.isQuiet) (statement ts)) :
    Carries [] Draft.allData context ts (fun c => c = context ∨ c.isQuiet)
      (statements ends ts) := by
  unfold statements
  split
  · exact .pure rfl (.inl rfl)
  · split
    · exact .pure rfl (.inl rfl)
    · refine hstatement.bind fun first rest h after ds hf hq => ?_
      refine (ih.statements (by omega) ?_).bind
        fun others rest' h' after' ds' ho hq' => .pure ?_ (.inr ?_)
      · rintro rfl
        cases hq
      · rw [Draft.allData_cons, hf, ho]
        rfl
      · obtain rfl | hq' := hq'
        exacts [hq, hq']

theorem block_carries (ih : Carrying ts.length) (hm : context ≠ .member) :
    Carries [] Draft.data context ts (·.isQuiet) (block ts) := by
  unfold block
  refine .marked fun start rest₁ h₁ => ?_
  refine (ih.statements (by omega) ?_).bind fun inside rest₂ h₂ after₂ ds₂ hi _ => ?_
  · cases context <;> simp [Context.next]
  · refine .marked fun _ rest₃ h₃ => ?_
    rw [Context.next_closeBrace]
    refine .pure ?_ rfl
    rw [Draft.data_list rfl rfl, hi]

theorem body_carries (ih : Carrying ts.length) (hm : context ≠ .member)
    (hstatement : Carries [] Draft.data context ts (·.isQuiet) (statement ts)) :
    Carries [] Draft.data context ts (·.isQuiet) (body ts) := by
  unfold body
  split
  · exact block_carries ih hm
  · refine hstatement.bind fun inside rest h after ds hi hq => .pure ?_ hq
    rw [Draft.data_one rfl rfl, hi]
  · exact .error

theorem header_carries (ih : Carrying ts.length) :
    Carries [] Draft.data context ts (· = .closed) (header ts) := by
  unfold header
  refine .marked fun _ rest₁ h₁ => ?_
  rw [Context.next_openParen]
  refine (ih.expression (by omega) (Context.plain_admits _)).bind
    fun value rest₂ h₂ after₂ ds₂ hv _ => ?_
  exact .marked fun _ rest₃ h₃ => .pure hv (Context.next_closeParen _)

theorem declarator_carries (ih : Carrying ts.length) :
    Carries [] Draft.data context ts (·.isQuiet) (declarator ts) := by
  unfold declarator
  refine expectName_carries.bind fun name rest₁ h₁ after₁ ds₁ hn hq₁ => ?_
  obtain rfl : ds₁ = [.name name.1] := hn.symm
  dsimp only
  cases he : eat? (.mark .assign) rest₁ with
  | none => exact .pure (Draft.data_leaf _ _) hq₁
  | some p =>
    obtain ⟨_, more, h₂⟩ := p
    refine .eaten he (fun _ => rfl) ?_
    rw [(isOperator_assign _).1]
    refine (ih.assignment (by omega) (Context.plain_admits _)).bind
      fun value rest h₃ after ds hv hq => .pure ?_ hq
    simp [Draft.data_node, Draft.allData_cons, Draft.allData_nil, hv, Kind.saidFirst,
      Kind.saidLast]

theorem declarators_carries (ih : Carrying ts.length) :
    Carries [] Draft.allData context ts (·.isQuiet) (declarators ts) := by
  unfold declarators
  refine (declarator_carries ih).bind fun first rest₁ h₁ after₁ ds₁ hf hq₁ => ?_
  dsimp only
  cases he : eat? (.mark .comma) rest₁ with
  | none =>
    refine .pure ?_ hq₁
    rw [Draft.allData_cons, hf, Draft.allData_nil, List.append_nil]
  | some p =>
    obtain ⟨_, more, h₂⟩ := p
    refine .eaten he (fun _ => rfl) ?_
    refine (ih.declarators (by omega)).bind fun others rest h₃ after ds ho hq => .pure ?_ hq
    rw [Draft.allData_cons, hf, ho]
    rfl

theorem initializer_carries (ih : Carrying ts.length) (start : Span) :
    Carries [] Draft.data .plain ts (· = .plain) (initializer start ts) := by
  unfold initializer
  split
  · exact .skip rfl (.pure (Draft.data_leaf _ _) rfl)
  · rename_i more
    change Carrying (more.length + 1) at ih
    refine .skip (Context.keeps_word_of_quiet rfl rfl) ?_
    refine (ih.declarators (by omega)).bind fun names rest₁ h₁ after₁ ds₁ hn _ => ?_
    refine .marked fun _ rest₂ h₂ => .pure ?_ (Context.next_semicolon _)
    simp [Draft.data_node, Draft.allData_nil, hn, Kind.saidFirst, Kind.saidLast]
  · refine (expression_carries ih (Context.plain_admits _)).bind
      fun value rest₁ h₁ after₁ ds₁ hv _ => ?_
    exact .marked fun _ rest₂ h₂ => .pure hv (Context.next_semicolon _)

/-- What stands behind a part that may be left out is the mark that ends it. -/
theorem optional_carries (ih : Carrying ts.length) (start : Span) {close : Mark}
    (hclose : ∀ c : Context, c.next (.mark close) = Context.plain.next (.mark close)) :
    Carries [] Draft.data .plain ts (· = Context.plain.next (.mark close))
      (optional start close ts) := by
  unfold optional
  cases he : eat? (.mark close) ts with
  | some p => exact .eaten he (fun _ => rfl) (.pure (Draft.data_leaf _ _) rfl)
  | none =>
    refine (expression_carries ih (Context.plain_admits _)).bind
      fun value rest₁ h₁ after₁ ds₁ hv _ => ?_
    exact .marked fun _ rest₂ h₂ => .pure hv (hclose _)

theorem clauses_carries (ih : Carrying ts.length) (hq : context.isQuiet) :
    Carries [] Draft.allData context ts (·.isQuiet) (clauses ts) := by
  unfold clauses
  split
  · rename_i start more
    change Carrying (more.length + 1) at ih
    refine .skip (Context.keeps_word_of_quiet rfl hq) ?_
    rw [Context.next_word]
    refine (ih.expression (by omega) (Context.plain_admits _)).bind
      fun test rest₁ h₁ after₁ ds₁ ht _ => ?_
    refine .marked fun _ rest₂ h₂ => ?_
    rw [(isOperator_colon _).1]
    refine (ih.statements (by omega) (by decide)).bind
      fun inside rest₃ h₃ after₃ ds₃ hi hq₃ => ?_
    refine (ih.clauses (by omega) ?_).bind fun others rest₄ h₄ after₄ ds₄ ho hq₄ => .pure ?_ hq₄
    · obtain rfl | hq₃ := hq₃
      exacts [rfl, hq₃]
    · rw [Draft.allData_cons, Draft.data_two rfl rfl, ht, Draft.data_list rfl rfl, hi, ho]
      simp
  · rename_i start more
    change Carrying (more.length + 1) at ih
    refine .skip (Context.keeps_word_of_quiet rfl hq) ?_
    refine .marked fun _ rest₁ h₁ => ?_
    rw [(isOperator_colon _).1]
    refine (ih.statements (by omega) (by decide)).bind
      fun inside rest₂ h₂ after₂ ds₂ hi hq₂ => ?_
    refine (ih.clauses (by omega) ?_).bind fun others rest₃ h₃ after₃ ds₃ ho hq₃ => .pure ?_ hq₃
    · obtain rfl | hq₂ := hq₂
      exacts [rfl, hq₂]
    · rw [Draft.allData_cons, Draft.data_one rfl rfl, Draft.data_list rfl rfl, hi, ho]
      simp
  · exact .skip rfl (.pure rfl (by rw [Context.next_closeBrace]; rfl))
  · exact .error

theorem statement_carries (ih : Carrying ts.length) (hm : context ≠ .member) :
    Carries [] Draft.data context ts (·.isQuiet) (statement ts) := by
  unfold statement
  split
  · exact block_carries ih hm
  · rename_i more
    change Carrying (more.length + 1) at ih
    refine .word rfl hm declarators_refuses.bind ?_
    refine (ih.declarators (by omega)).bind fun names rest₁ h₁ after₁ ds₁ hn hq₁ => ?_
    refine .ended hq₁ fun after₂ rest₂ h₂ hq₂ => .pure ?_ hq₂
    rw [Draft.data_declarations, hn]
  · rename_i start more
    change Carrying (more.length + 1) at ih
    refine .word rfl hm header_refuses.bind ?_
    refine (ih.header (by omega)).bind fun condition rest₁ h₁ after₁ ds₁ hc hq₁ => ?_
    refine (ih.body (by omega) (hq₁ ▸ by decide)).bind fun first rest₂ h₂ after₂ ds₂ hf hq₂ => ?_
    dsimp only
    cases he : eat? (.keyword .else_) rest₂ with
    | none =>
      refine .pure ?_ hq₂
      rw [Draft.data_two rfl rfl, hc, hf]
      rfl
    | some p =>
      obtain ⟨_, more', h₃⟩ := p
      refine .eaten he (fun _ => Context.keeps_word_of_quiet rfl hq₂) ?_
      rw [Context.next_word]
      refine (ih.body (by omega) (by decide)).bind fun second rest h after ds hs hq => .pure ?_ hq
      simp [Draft.data_node, Draft.allData_cons, Draft.allData_nil, hc, hf, hs, Kind.saidFirst,
        Kind.saidLast]
  · rename_i start more
    change Carrying (more.length + 1) at ih
    refine .word rfl hm header_refuses.bind ?_
    refine (ih.header (by omega)).bind fun condition rest₁ h₁ after₁ ds₁ hc hq₁ => ?_
    refine (ih.body (by omega) (hq₁ ▸ by decide)).bind
      fun inside rest₂ h₂ after₂ ds₂ hi hq₂ => .pure ?_ hq₂
    rw [Draft.data_two rfl rfl, hc, hi]
    rfl
  · rename_i start more
    change Carrying (more.length + 1) at ih
    refine .word rfl hm (body_refuses rfl rfl).bind ?_
    refine (ih.body (by omega) (by decide)).bind fun inside rest₁ h₁ after₁ ds₁ hi hq₁ => ?_
    refine (expect_carries fun _ => Context.keeps_word_of_quiet rfl hq₁).bind
      fun _ rest₂ h₂ after₂ ds₂ hd _ => ?_
    obtain rfl : ds₂ = [] := hd.symm
    refine (ih.header (by omega)).bind fun condition rest₃ h₃ after₃ ds₃ hc hq₃ => ?_
    refine .ended (hq₃ ▸ rfl) fun after₄ rest₄ h₄ hq₄ => .pure ?_ hq₄
    rw [Draft.data_two rfl rfl, hi, hc]
    simp
  · rename_i start more
    change Carrying (more.length + 1) at ih
    refine .word rfl hm (expectMark_refuses (by decide)).bind ?_
    refine .marked fun _ rest₁ h₁ => ?_
    rw [Context.next_openParen]
    refine (ih.initializer start (by omega)).bind fun first rest₂ h₂ after₂ ds₂ hf hq₂ => ?_
    subst hq₂
    refine (ih.optional start .semicolon (by omega) Context.next_semicolon).bind
      fun condition rest₃ h₃ after₃ ds₃ hc hq₃ => ?_
    obtain rfl : after₃ = .plain := hq₃
    refine (ih.optional start .closeParen (by omega) Context.next_closeParen).bind
      fun update rest₄ h₄ after₄ ds₄ hu hq₄ => ?_
    refine (ih.body (by omega) (hq₄ ▸ by decide)).bind
      fun inside rest₅ h₅ after₅ ds₅ hi hq₅ => .pure ?_ hq₅
    simp [Draft.data_node, Draft.allData_cons, Draft.allData_nil, hf, hc, hu, hi, Kind.saidFirst,
      Kind.saidLast]
  · rename_i start more
    change Carrying (more.length + 1) at ih
    refine .word rfl hm header_refuses.bind ?_
    refine (ih.header (by omega)).bind fun value rest₁ h₁ after₁ ds₁ hv hq₁ => ?_
    subst hq₁
    refine .marked fun _ rest₂ h₂ => ?_
    refine (ih.clauses (by omega) rfl).bind
      fun cases rest₃ h₃ after₃ ds₃ hc hq₃ => .pure ?_ hq₃
    rw [Draft.data_applied rfl rfl, hv, hc]
    rfl
  · rename_i start more
    change Carrying (more.length + 1) at ih
    split
    · exact .word rfl hm statementEnd_refuses.bind
        (.ended rfl fun after₁ rest₁ h₁ hq₁ => .pure (Draft.data_leaf _ _) hq₁)
    · refine .word rfl hm (expression_refuses rfl).bind ?_
      refine (ih.expression (by omega) (Context.plain_admits _)).bind
        fun value rest₁ h₁ after₁ ds₁ hv hq₁ => ?_
      refine .ended hq₁ fun after₂ rest₂ h₂ hq₂ => .pure ?_ hq₂
      simp [Draft.data_node, Draft.allData_cons, Draft.allData_nil, hv, Kind.saidFirst,
        Kind.saidLast]
  · rename_i start more
    refine .word rfl hm (label_refuses fun _ => statementEnd_refuses.bind) ?_
    refine .named rfl fun label rest₁ h₁ after₁ hq₁ => ?_
    refine .ended hq₁ fun after₂ rest₂ h₂ hq₂ => .pure ?_ hq₂
    rw [Draft.data_leaf]
    exact List.append_nil _
  · rename_i start more
    refine .word rfl hm (label_refuses fun _ => statementEnd_refuses.bind) ?_
    refine .named rfl fun label rest₁ h₁ after₁ hq₁ => ?_
    refine .ended hq₁ fun after₂ rest₂ h₂ hq₂ => .pure ?_ hq₂
    rw [Draft.data_leaf]
    exact List.append_nil _
  · rename_i start more
    change Carrying (more.length + 1) at ih
    refine .word rfl hm (expression_refuses rfl).bind ?_
    refine (ih.expression (by omega) (Context.plain_admits _)).bind
      fun value rest₁ h₁ after₁ ds₁ hv hq₁ => ?_
    refine .ended hq₁ fun after₂ rest₂ h₂ hq₂ => .pure ?_ hq₂
    rw [Draft.data_one rfl rfl, hv]
  · rename_i start more
    change Carrying (more.length + 1) at ih
    refine .word rfl hm functionTail_refuses.bind ?_
    exact (ih.functionTail _ (by omega)).bind fun value rest h after ds hv hq => .pure hv hq
  · exact .skip rfl (.pure (Draft.data_leaf _ _) (by cases context <;> rfl))
  · rename_i name start _ t more
    change Carrying (more.length + 1 + 1 + 1) at ih
    refine .keep rfl (.name _) (.skip rfl ?_)
    rw [(isOperator_colon _).1]
    refine (ih.statement ?_ (by decide)).bind fun inside rest h after ds hi hq => .pure ?_ hq
    · simp only [List.length_cons]
      omega
    · simp [Draft.data_node, Draft.allData_cons, Draft.allData_nil, Draft.data_single, hi,
        Kind.saidFirst, Kind.saidLast]
  · exact .error
  · rename_i t more hbrace _ _ _ _ _ _ _ _ _ _ _ _ _ _
    refine (expression_carries ih ⟨hm, ?_⟩).bind fun value rest₁ h₁ after₁ ds₁ hv hq₁ => ?_
    · intro _ hb
      obtain ⟨k, span⟩ := t
      obtain rfl : k = .mark .openBrace := Option.some.inj hb
      exact hbrace _ rfl
    · refine .ended hq₁ fun after₂ rest₂ h₂ hq₂ => .pure ?_ hq₂
      rw [Draft.data_one rfl rfl, hv]
  · exact .error

end Statements

/-- What is read from runs of tokens of any length says what the tokens say. -/
theorem carrying (n : Nat) : Carrying n := by
  induction n using Nat.strongRecOn with
  | _ n ih =>
    exact {
      expression := fun h ha => expression_carries (ih _ h) ha
      commaTail := fun left _ h hq => commaTail_carries (ih _ h) left hq
      assignment := fun h ha => assignment_carries (ih _ h) ha
      orTail := fun left _ h hq => orTail_carries (ih _ h) left hq
      conjunction := fun h ha => conjunction_carries (ih _ h) ha
      andTail := fun left _ h hq => andTail_carries (ih _ h) left hq
      operation := fun level _ h ha => operation_carries (ih _ h) level ha
      operationTail := fun level left _ h hq => operationTail_carries (ih _ h) level left hq
      unary := fun h ha => unary_carries (ih _ h) ha
      accessTail := fun calls left _ h hq => accessTail_carries (ih _ h) calls left hq
      operand := fun h ha => operand_carries (ih _ h) ha
      items := fun h hclose hm hc => items_carries (ih _ h) hclose
        (assignment_carries (ih _ h) (Context.admits_of hm hc _))
      entries := fun h => entries_carries (ih _ h)
      functionTail := fun start _ h => functionTail_carries (ih _ h) start
      block := fun h hm => block_carries (ih _ h) hm
      statements := fun h hm => statements_carries (ih _ h) (statement_carries (ih _ h) hm)
      body := fun h hm => body_carries (ih _ h) hm (statement_carries (ih _ h) hm)
      header := fun h => header_carries (ih _ h)
      declarators := fun h => declarators_carries (ih _ h)
      declarator := fun h => declarator_carries (ih _ h)
      initializer := fun start _ h => initializer_carries (ih _ h) start
      optional := fun start close _ h hclose => optional_carries (ih _ h) start hclose
      clauses := fun h hq => clauses_carries (ih _ h) hq
      statement := fun h hm => statement_carries (ih _ h) hm }

/-- Statements that nothing ends are read to the end of the text. -/
theorem rest_of_statements {ts : List Token} {r : Parsed (List Draft) (ts.length + 1)}
    (h : statements (fun _ => false) ts = .ok r) : r.rest = [] := by
  suffices hall : ∀ (n : Nat) (ts : List Token), ts.length < n →
      ∀ r, statements (fun _ => false) ts = .ok r → r.rest = [] from
    hall _ ts (Nat.lt_succ_self _) r h
  intro n
  induction n with
  | zero => exact fun _ h => absurd h (Nat.not_lt_zero _)
  | succ n ih =>
    intro ts hlt r h
    unfold statements at h
    split at h
    · cases h
      rfl
    · rename_i t more
      rw [if_neg (by decide)] at h
      cases hs : statement (t :: more) with
      | error => rw [hs] at h; cases h
      | ok first =>
        rw [hs] at h
        cases ho : statements (fun _ => false) first.rest with
        | error =>
          change (statements _ first.rest >>= _) = _ at h
          rw [ho] at h
          cases h
        | ok others =>
          change (statements _ first.rest >>= _) = _ at h
          rw [ho] at h
          cases h
          exact ih first.rest (by have := first.shorter; omega) others ho

/-- The statements that are read from tokens say what the tokens say. -/
theorem parseScript_says {list : TokenList} {script : List Draft}
    (h : parseScript list = .ok script) :
    List.Forall₂ Says (Draft.allData script) (dataTokens (list.tokens.map Token.kind)) := by
  have hc : Carries [] Draft.allData .plain list.tokens _ (statements (fun _ => false) list.tokens) :=
    (carrying (list.tokens.length + 1)).statements (Nat.lt_succ_self _) (by decide)
  unfold parseScript at h
  split at h
  · rename_i rest _ hr
    cases h
    obtain ⟨ds, kept, after, hdata, hsays, htokens, -⟩ := hc _ hr
    obtain rfl : rest = [] := rest_of_statements hr
    rw [List.nil_append] at hdata
    rw [List.map_nil, dataTokensFrom, List.append_nil] at htokens
    rw [hdata, dataTokens, htokens]
    exact hsays
  · cases h

/-- The tree of a text says what the tokens of the text say, in the same order: nothing is left out,
said twice or moved. -/
theorem readTree_keeps_data {file text : String} {t : Tree} (h : readTree file text = .ok t) :
    ∃ list, tokenize text = .ok list ∧
      List.Forall₂ Says (t.shape Tree.root).data (dataTokens (list.tokens.map Token.kind)) := by
  unfold readTree readTokens at h
  cases htokens : tokenize text with
  | error => rw [htokens] at h; cases h
  | ok list =>
    rw [htokens] at h
    cases hscript : parseScript list with
    | error =>
      change (Except.mapError _ (parseScript list) >>= _) = _ at h
      rw [hscript] at h
      cases h
    | ok script =>
      change (Except.mapError _ (parseScript list) >>= _) = _ at h
      rw [hscript] at h
      cases h
      obtain ⟨b, hb, hroot, hshape, -⟩ := ofStatements_holds script
      refine ⟨list, rfl, ?_⟩
      have hs : (Tree.ofStatements script).shape Tree.root = b.shape := by
        rw [← hroot]
        exact Tree.Holds.shape (z := []) (o := []) hb
      rw [hs, hshape, Shape.data]
      simpa [Kind.saidFirst, Kind.saidLast, Draft.allData] using parseScript_says hscript

theorem readTree_keeps_data_of_words : ∃ t,
    readTree "m.js" "l: switch (c) {default: o = {default: 1, 2: x.if, a: [this]}; break l}"
      = .ok t ∧ ∃ list,
    tokenize "l: switch (c) {default: o = {default: 1, 2: x.if, a: [this]}; break l}"
      = .ok list ∧
    List.Forall₂ Says (t.shape Tree.root).data (dataTokens (list.tokens.map Token.kind)) := by
  have hread : (readTree "m.js"
      "l: switch (c) {default: o = {default: 1, 2: x.if, a: [this]}; break l}").isOk
        = true := by decide +kernel
  cases ht : readTree "m.js"
      "l: switch (c) {default: o = {default: 1, 2: x.if, a: [this]}; break l}" with
  | error => rw [ht] at hread; cases hread
  | ok t => exact ⟨t, rfl, readTree_keeps_data ht⟩

end Hoist
