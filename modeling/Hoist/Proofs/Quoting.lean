import Hoist.Proofs.StatementData

namespace Hoist

/-- Whether a node of this kind says by its place where a variable or a callee stands. -/
def Kind.isQuoted : Kind → Bool
  | .name _ | .call => true
  | _ => false

mutual

/-- The tokens that the variables of a draft were read from, in the order in which they are written.
A call stands where its callee does. -/
inductive Draft.Quotes : Draft → List Token → Prop
  | name {x : String} {span : Span} {ds : List Draft} {said : List Token} (hds : AllQuote ds said) :
    Quotes (.node (.name x) span [] ds) (⟨.symbol x, span⟩ :: said)
  | call {callee : Draft} {arguments : List Draft} {said more : List Token}
    (hcallee : Quotes callee said) (harguments : AllQuote arguments more) :
    Quotes (.node .call callee.span [callee] arguments) (said ++ more)
  | node {kind : Kind} {span : Span} {before after : List Draft} {said more : List Token}
    (hk : kind.isQuoted = false) (hbefore : AllQuote before said) (hafter : AllQuote after more) :
    Quotes (.node kind span before after) (said ++ more)

/-- The tokens that the variables of several drafts were read from. -/
inductive Draft.AllQuote : List Draft → List Token → Prop
  | nil : AllQuote [] []
  | cons {d : Draft} {ds : List Draft} {said more : List Token} (hd : Quotes d said)
    (hds : AllQuote ds more) : AllQuote (d :: ds) (said ++ more)
  | declarations {names ds : List Draft} {said more : List Token} (hnames : AllQuote names said)
    (hds : AllQuote ds more) : AllQuote (.declarations names :: ds) (said ++ more)

end

namespace Draft

variable {d a b : Draft} {ds : List Draft} {said more : List Token} {kind : Kind} {span : Span}

theorem AllQuote.append {cs : List Draft} (h : AllQuote cs said) (hds : AllQuote ds more) :
    AllQuote (cs ++ ds) (said ++ more) := by
  induction cs generalizing said with
  | nil =>
    cases h
    exact hds
  | cons c cs ih =>
    cases h with
    | cons hc hcs =>
      rw [List.append_assoc]
      exact .cons hc (ih hcs)
    | declarations hn hcs =>
      rw [List.append_assoc]
      exact .declarations hn (ih hcs)

theorem Quotes.one (h : d.Quotes said) : AllQuote [d] said := by
  have hall := AllQuote.cons h .nil
  rwa [List.append_nil] at hall

theorem Quotes.two (ha : a.Quotes said) (hb : b.Quotes more) : AllQuote [a, b] (said ++ more) :=
  .cons ha hb.one

/-- A node over drafts that are made before it. -/
theorem AllQuote.above (h : AllQuote ds said) (hk : kind.isQuoted = false) :
    (node kind span ds []).Quotes said := by
  have hnode : (node kind span ds []).Quotes (said ++ []) := .node hk h .nil
  rwa [List.append_nil] at hnode

end Draft

/-- What is read from the front of some tokens quotes those that were read before and, in their
order, some of those that were read. -/
def Takes {α : Type} {n : Nat} (done : List Token) (quotes : α → List Token → Prop)
    (ts : List Token) (x : Parse α n) : Prop :=
  ∀ r, x = .ok r → ∃ said used, quotes r.value (done ++ said) ∧ ts = used ++ r.rest ∧
    said.Sublist used

namespace Takes

variable {α β : Type} {n m : Nat} {start done : List Token} {quotes : α → List Token → Prop}
  {quotes' : β → List Token → Prop} {ts more : List Token}

/-- One part is read after the other. -/
theorem bind {x : Parse α n} {f : Parsed α n → Parse β m} (hx : Takes start quotes ts x)
    (hf : ∀ a rest h said, quotes a (start ++ said) →
      Takes (done ++ said) quotes' rest (f ⟨a, rest, h⟩)) :
    Takes done quotes' ts (x >>= f) := by
  intro r hr
  cases x with
  | error => cases hr
  | ok p =>
    obtain ⟨said, used, hquotes, hts, hsaid⟩ := hx p rfl
    obtain ⟨said', used', hquotes', hrest, hsaid'⟩ := hf p.value p.rest p.shorter said hquotes r hr
    refine ⟨said ++ said', used ++ used', ?_, ?_, hsaid.append hsaid'⟩
    · rwa [← List.append_assoc]
    · rw [hts, hrest, List.append_assoc]

theorem pure {a : α} {h : ts.length < n} (ha : quotes a done) :
    Takes done quotes ts (.ok ⟨a, ts, h⟩) := by
  rintro r ⟨⟩
  exact ⟨[], [], by rwa [List.append_nil], rfl, List.Sublist.slnil⟩

theorem error {fault : Fault} : Takes done quotes ts (.error fault : Parse α n) := by
  intro r hr
  cases hr

/-- A token that no variable was read from. -/
theorem skip {t : Token} {x : Parse α n} (h : Takes done quotes more x) :
    Takes done quotes (t :: more) x := by
  intro r hr
  obtain ⟨said, used, hquotes, hts, hsaid⟩ := h r hr
  exact ⟨said, t :: used, hquotes, by rw [hts, List.cons_append], hsaid.cons t⟩

/-- A token that a variable was read from. -/
theorem keep {t : Token} {x : Parse α n} (h : Takes (done ++ [t]) quotes more x) :
    Takes done quotes (t :: more) x := by
  intro r hr
  obtain ⟨said, used, hquotes, hts, hsaid⟩ := h r hr
  refine ⟨t :: said, t :: used, ?_, by rw [hts, List.cons_append], hsaid.cons_cons t⟩
  rwa [List.append_assoc] at hquotes

theorem imp {quotes' : α → List Token → Prop} {x : Parse α n} (h : Takes done quotes ts x)
    (hq : ∀ a said, quotes a said → quotes' a said) : Takes done quotes' ts x := by
  intro r hr
  obtain ⟨said, used, hquotes, hrest⟩ := h r hr
  exact ⟨said, used, hq _ _ hquotes, hrest⟩

/-- An optional token that no variable was read from. -/
theorem taken {γ : Type} {f : TokenKind → Option γ} {a : γ × Span} {h : more.length < ts.length}
    {x : Parse α n} (ht : take? f ts = some ⟨a, more, h⟩) (hx : Takes done quotes more x) :
    Takes done quotes ts x := by
  obtain ⟨t, hts, -⟩ := cons_of_take? ht
  rw [hts]
  exact hx.skip

/-- A check that is passed reads nothing. -/
theorem checked {use : TargetUse} {target : Draft} {x : Parse α n} (h : Takes done quotes ts x) :
    Takes done quotes ts (do checkTarget use target; x) := by
  unfold checkTarget
  split
  · exact h
  · exact .error

end Takes

section Tokens

variable {ts : List Token}

end Tokens

section Expressions

variable {ts done : List Token} {left : Draft}

end Expressions

end Hoist
