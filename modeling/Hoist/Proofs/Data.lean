import Hoist.Proofs.Legible
import Hoist.Proofs.Reading

namespace Hoist

/-- What a program says besides its structure. -/
inductive Datum
  /-- The name of a variable, a function, a parameter or a label. -/
  | name (name : String)
  /-- The name of a property. -/
  | member (name : String)
  /-- The key of an entry of an object. -/
  | key (name : String)
  | number (value : Binary64)
  | text (value : String)
  | word (word : Keyword)

/-- What a node of a kind says in front of its children. -/
def Kind.saidFirst : Kind → List Datum
  | .name x | .label x => [.name x]
  | .break_ x | .continue_ x => (x.map .name).toList
  | .function x params => (x.map .name).toList ++ params.map .name
  | .key x => [.key x]
  | .number value => [.number value]
  | .text value => [.text value]
  | .true_ => [.word .true_]
  | .false_ => [.word .false_]
  | .null => [.word .null]
  | .this_ => [.word .this_]
  | _ => []

/-- What a node of a kind says behind its children. -/
def Kind.saidLast : Kind → List Datum
  | .property x => [.member x]
  | _ => []

/-- What a shape says, in the order in which it is written. -/
def Shape.data : Shape → List Datum
  | .node kind _ ss => kind.saidFirst ++ ss.flatMap data ++ kind.saidLast

/-- How a token says something. -/
inductive Says : Datum → TokenKind → Prop
  | name (x : String) : Says (.name x) (.symbol x)
  | member (x : String) : Says (.member x) (.symbol x)
  | memberWord (w : Keyword) : Says (.member w.spelling) (.keyword w)
  | key (x : String) : Says (.key x) (.symbol x)
  | keyWord (w : Keyword) : Says (.key w.spelling) (.keyword w)
  | keyText (x : String) : Says (.key x) (.text x)
  | keyNumber (value : Binary64) : Says (.key value.text) (.number value)
  | number (value : Binary64) : Says (.number value) (.number value)
  | text (x : String) : Says (.text x) (.text x)
  | word (w : Keyword) : Says (.word w) (.keyword w)

/-- What stands right in front of a token, as far as it tells what a reserved word means there. -/
inductive Context
  /-- A dot. -/
  | member
  /-- A comma, or a brace that does not stand right behind a closing parenthesis. -/
  | entry
  /-- A closing parenthesis. A brace behind it opens statements or clauses. -/
  | closed
  | plain
  deriving DecidableEq

/-- What stands in front of the token after one of a kind. -/
def Context.next : Context → TokenKind → Context
  | _, .mark .dot => .member
  | _, .mark .comma => .entry
  | _, .mark .closeParen => .closed
  | .closed, .mark .openBrace => .plain
  | _, .mark .openBrace => .entry
  | _, _ => .plain

/-- Whether a reserved word is a value by itself. -/
def Keyword.isValue : Keyword → Bool
  | .true_ | .false_ | .null | .this_ => true
  | _ => false

/-- Whether a token says something. A reserved word does where it is a value, where it is the name of a
property, and where it is the key of an entry: behind what can stand in front of an entry, and in front
of a colon. -/
def Context.keeps (context : Context) (next : Option TokenKind) : TokenKind → Bool
  | .symbol _ | .number _ | .text _ => true
  | .keyword w => w.isValue || context = .member || context = .entry && next = some (.mark .colon)
  | .mark _ => false

/-- The tokens that say something, among those that stand in a context. -/
def dataTokensFrom : Context → List TokenKind → List TokenKind
  | _, [] => []
  | context, k :: ks =>
    if context.keeps ks.head? k then k :: dataTokensFrom (context.next k) ks
    else dataTokensFrom (context.next k) ks

/-- The tokens of a program that say something. -/
def dataTokens (ks : List TokenKind) : List TokenKind := dataTokensFrom .plain ks

namespace Draft

/-- What drafts say. -/
def allData (ds : List Draft) : List Datum := (allShapes ds).flatMap Shape.data

/-- What a draft says. -/
def data (d : Draft) : List Datum := d.shapes.flatMap Shape.data

theorem allData_nil : allData [] = [] := rfl

theorem allData_cons (d : Draft) (ds : List Draft) : allData (d :: ds) = d.data ++ allData ds := by
  rw [allData, allShapes, List.flatMap_append]
  rfl

theorem data_node (kind : Kind) (span : Span) (before after : List Draft) :
    (node kind span before after).data =
      kind.saidFirst ++ (allData before ++ allData after) ++ kind.saidLast := by
  rw [data, shapes, List.flatMap_singleton, Shape.data, List.flatMap_append]
  rfl

theorem data_leaf (kind : Kind) (span : Span) :
    (leaf kind span).data = kind.saidFirst ++ kind.saidLast := by
  simp [leaf, data_node, allData_nil]

theorem data_declarations (ds : List Draft) : (declarations ds).data = allData ds := by
  rw [data, shapes, List.flatMap_map, allData]
  refine List.flatMap_congr fun s _ => ?_
  rw [Shape.data, List.flatMap_singleton]
  exact List.append_nil _

/-- Declarations in a block say what they say outside. -/
theorem data_single (start : Span) (d : Draft) : (single start d).data = d.data := by
  unfold single
  split
  · rfl
  · rw [data_node, allData_cons]
    simp [Kind.saidFirst, Kind.saidLast, allData_nil]
  · rfl

end Draft

/-- What is read from the front of some tokens says what was said before and what the tokens that were
read say, and leaves a context for the others. -/
def Carries {α : Type} {n : Nat} (done : List Datum) (data : α → List Datum) (context : Context)
    (ts : List Token) (Q : Context → Prop) (x : Parse α n) : Prop :=
  ∀ r, x = .ok r → ∃ ds kept after, data r.value = done ++ ds ∧ List.Forall₂ Says ds kept ∧
    dataTokensFrom context (ts.map Token.kind) =
      kept ++ dataTokensFrom after (r.rest.map Token.kind) ∧ Q after

namespace Carries

variable {α β : Type} {n m : Nat} {done : List Datum} {data : α → List Datum} {data' : β → List Datum}
  {context : Context} {ts more : List Token} {Q Q' : Context → Prop}

/-- One part is read after the other. -/
theorem bind {said : List Datum} {x : Parse α n} {f : Parsed α n → Parse β m}
    (hx : Carries said data context ts Q x)
    (hf : ∀ a rest h after ds, data a = said ++ ds → Q after →
      Carries (done ++ ds) data' after rest Q' (f ⟨a, rest, h⟩)) :
    Carries done data' context ts Q' (x >>= f) := by
  intro r hr
  cases x with
  | error => cases hr
  | ok p =>
    obtain ⟨ds, kept, after, hdata, hsays, htokens, hq⟩ := hx p rfl
    obtain ⟨ds', kept', after', hdata', hsays', htokens', hq'⟩ :=
      hf p.value p.rest p.shorter after ds hdata hq r hr
    refine ⟨ds ++ ds', kept ++ kept', after', ?_, List.rel_append hsays hsays', ?_, hq'⟩
    · rw [hdata', List.append_assoc]
    · rw [htokens, htokens', List.append_assoc]

theorem pure {a : α} {h : ts.length < n} (hdata : data a = done) (hq : Q context) :
    Carries done data context ts Q (.ok ⟨a, ts, h⟩) := by
  rintro r ⟨⟩
  exact ⟨[], [], context, by rw [hdata, List.append_nil], .nil, rfl, hq⟩

theorem error {fault : Fault} : Carries done data context ts Q (.error fault : Parse α n) := by
  intro r hr
  cases hr

theorem imp {x : Parse α n} (h : Carries done data context ts Q x) (hq : ∀ c, Q c → Q' c) :
    Carries done data context ts Q' x := by
  intro r hr
  obtain ⟨ds, kept, after, hdata, hsays, htokens, hafter⟩ := h r hr
  exact ⟨ds, kept, after, hdata, hsays, htokens, hq _ hafter⟩

/-- A token that says nothing. -/
theorem skip {t : Token} {x : Parse α n}
    (hk : context.keeps (more.head?.map Token.kind) t.kind = false)
    (h : Carries done data (context.next t.kind) more Q x) : Carries done data context (t :: more) Q x := by
  intro r hr
  obtain ⟨ds, kept, after, hdata, hsays, htokens, hq⟩ := h r hr
  refine ⟨ds, kept, after, hdata, hsays, ?_, hq⟩
  rw [List.map_cons, dataTokensFrom, List.head?_map, hk]
  exact htokens

/-- A token that says something. -/
theorem keep {t : Token} {d : Datum} {x : Parse α n}
    (hk : context.keeps (more.head?.map Token.kind) t.kind = true) (hd : Says d t.kind)
    (h : Carries (done ++ [d]) data (context.next t.kind) more Q x) :
    Carries done data context (t :: more) Q x := by
  intro r hr
  obtain ⟨ds, kept, after, hdata, hsays, htokens, hq⟩ := h r hr
  refine ⟨d :: ds, t.kind :: kept, after, ?_, .cons hd hsays, ?_, hq⟩
  · rw [hdata, List.append_assoc, List.singleton_append]
  · rw [List.map_cons, dataTokensFrom, List.head?_map, hk, if_pos rfl, htokens, List.cons_append]

/-- A check that is passed says nothing. -/
theorem checked {use : TargetUse} {target : Draft} {x : Parse α n} (h : Carries done data context ts Q x) :
    Carries done data context ts Q (do checkTarget use target; x) := by
  unfold checkTarget
  split
  · exact h
  · exact .error

end Carries

/-- A token in front of some tokens. -/
theorem cons_of_take? {α : Type} {f : TokenKind → Option α} {ts : List Token}
    {r : Parsed (α × Span) ts.length} (h : take? f ts = some r) :
    ∃ t, ts = t :: r.rest ∧ f t.kind = some r.value.1 := by
  unfold take? at h
  split at h
  · rename_i t rest
    obtain ⟨a, ha, rfl⟩ := Option.map_eq_some_iff.mp h
    exact ⟨t, rfl, ha⟩
  · cases h

theorem cons_of_eat? {kind : TokenKind} {ts : List Token} {r : Parsed (Unit × Span) ts.length}
    (h : eat? kind ts = some r) : ∃ span, ts = ⟨kind, span⟩ :: r.rest := by
  obtain ⟨⟨k, span⟩, hts, hk⟩ := cons_of_take? h
  obtain rfl : k = kind := by
    by_contra hne
    simp [hne] at hk
  exact ⟨span, hts⟩

/-- Whether a reserved word in a context can only be structure or a value. -/
def Context.isQuiet : Context → Bool
  | .closed | .plain => true
  | .member | .entry => false

/-- Whether an operand can be read in a context. An object does not stand right behind a closing
parenthesis. -/
def Context.Admits (context : Context) (ts : List Token) : Prop :=
  context ≠ .member ∧ (context = .closed → ts.head?.map Token.kind ≠ some (.mark .openBrace))

theorem Context.admits_of {context : Context} (hm : context ≠ .member) (hc : context ≠ .closed)
    (ts : List Token) : context.Admits ts :=
  ⟨hm, fun h => absurd h hc⟩

/-- Nothing is read in front of a token of a kind. -/
def Refuses {α : Type} {n : Nat} (k : TokenKind) (ts : List Token) (x : Parse α n) : Prop :=
  ts.head?.map Token.kind = some k → ∀ r, x ≠ .ok r

theorem Refuses.bind {α β : Type} {n m : Nat} {k : TokenKind} {ts : List Token} {x : Parse α n}
    {f : Parsed α n → Parse β m} (h : Refuses k ts x) : Refuses k ts (x >>= f) := by
  intro hc r hr
  cases x with
  | error => cases hr
  | ok p => exact h hc p rfl

section Tokens

variable {α : Type} {n : Nat} {done : List Datum} {data : α → List Datum} {context : Context}
  {ts more : List Token} {Q : Context → Prop}

/-- A reserved word that says nothing in front of anything but a colon. -/
theorem Carries.skipWord {t : Token} {x : Parse α n}
    (hk : ∀ next, next ≠ some (.mark .colon) → context.keeps next t.kind = false)
    (hr : Refuses (.mark .colon) more x) (h : Carries done data (context.next t.kind) more Q x) :
    Carries done data context (t :: more) Q x := by
  by_cases hc : more.head?.map Token.kind = some (.mark .colon)
  · exact fun r he => absurd he (hr hc r)
  · exact .skip (hk _ hc) h

/-- An optional token that says nothing. -/
theorem Carries.taken {β : Type} {f : TokenKind → Option β} {a : β × Span}
    {h : more.length < ts.length} {x : Parse α n} (ht : take? f ts = some ⟨a, more, h⟩)
    (hx : ∀ kind, f kind = some a.1 →
      (∀ next, context.keeps next kind = false) ∧ Carries done data (context.next kind) more Q x) :
    Carries done data context ts Q x := by
  obtain ⟨t, hts, hk⟩ := cons_of_take? ht
  rw [hts]
  exact .skip ((hx _ hk).1 _) (hx _ hk).2

theorem Carries.eaten {kind : TokenKind} {a : Unit × Span} {h : more.length < ts.length}
    {x : Parse α n} (he : eat? kind ts = some ⟨a, more, h⟩)
    (hk : ∀ next, context.keeps next kind = false)
    (hx : Carries done data (context.next kind) more Q x) : Carries done data context ts Q x := by
  obtain ⟨span, hts⟩ := cons_of_eat? he
  rw [hts]
  exact .skip (hk _) hx

/-- A reserved word that is no value says nothing where it is no name. -/
theorem Context.keeps_word {w : Keyword} {next : Option TokenKind} (hw : w.isValue = false)
    (hm : context ≠ .member) (hn : next ≠ some (.mark .colon)) :
    context.keeps next (.keyword w) = false := by
  simp [keeps, hw, hm, hn]

theorem Context.keeps_word_of_quiet {w : Keyword} {next : Option TokenKind} (hw : w.isValue = false)
    (hq : context.isQuiet = true) : context.keeps next (.keyword w) = false := by
  cases context with
  | closed | plain => simp [keeps, hw]
  | member | entry => cases hq

theorem expect_carries {kind : TokenKind} (hk : ∀ next, context.keeps next kind = false) :
    Carries [] (fun _ => []) context ts (· = context.next kind) (expect kind ts) := by
  unfold expect
  split
  · rename_i t rest
    split
    · rename_i ht
      subst ht
      exact .skip (hk _) (.pure rfl rfl)
    · exact .error
  · exact .error

theorem expectMark_carries (mark : Mark) :
    Carries [] (fun _ => []) context ts (· = context.next (.mark mark)) (expectMark mark ts) :=
  expect_carries fun _ => rfl

theorem expectName_carries :
    Carries [] (fun p => [.name p.1]) context ts (·.isQuiet) (expectName ts) := by
  unfold expectName
  split
  · exact .keep rfl (.name _) (.pure rfl (by cases context <;> rfl))
  · exact .error

/-- Behind a dot stands the name of a property. -/
theorem propertyName_carries :
    Carries [] (fun p => [.member p.1]) .member ts (·.isQuiet) (propertyName ts) := by
  unfold propertyName
  split
  · exact .keep rfl (.member _) (.pure rfl rfl)
  · exact .keep (by simp [Context.keeps]) (.memberWord _) (.pure rfl rfl)
  · exact .error

theorem optionalName_carries : Carries [] (fun x => (x.map Datum.name).toList) context ts
    (fun c => c = context ∨ c.isQuiet = true) (optionalName ts) := by
  unfold optionalName
  split
  · exact .keep rfl (.name _) (.pure rfl (.inr (by cases context <;> rfl)))
  · exact .pure rfl (.inl rfl)

/-- The end of a statement says nothing. -/
theorem statementEnd_carries (hq : context.isQuiet = true) :
    Carries [] (fun _ => []) context ts (·.isQuiet) (statementEnd ts) := by
  unfold statementEnd
  split
  · exact .skip rfl (.pure rfl (by cases context <;> rfl))
  · exact .pure rfl hq
  · exact .pure rfl hq
  · exact .error

/-- A given mark in front of the rest. -/
theorem Carries.marked {β : Type} {m : Nat} {data : β → List Datum} {mark : Mark}
    {f : Parsed Span ts.length → Parse β m}
    (hf : ∀ span rest h, Carries done data (context.next (.mark mark)) rest Q (f ⟨span, rest, h⟩)) :
    Carries done data context ts Q (expectMark mark ts >>= f) := by
  refine (expectMark_carries mark).bind fun span rest h after ds hd hq => ?_
  obtain rfl : ds = [] := hd.symm
  rw [hq, List.append_nil]
  exact hf span rest h

/-- The end of a statement in front of the rest. -/
theorem Carries.ended {β : Type} {m : Nat} {data : β → List Datum}
    {f : Parsed Unit (ts.length + 1) → Parse β m} (hq : context.isQuiet = true)
    (hf : ∀ after rest h, after.isQuiet = true → Carries done data after rest Q (f ⟨(), rest, h⟩)) :
    Carries done data context ts Q (statementEnd ts >>= f) := by
  refine (statementEnd_carries hq).bind fun _ rest h after ds hd hq => ?_
  obtain rfl : ds = [] := hd.symm
  rw [List.append_nil]
  exact hf after rest h hq

/-- A name that may be left out in front of the rest. -/
theorem Carries.named {β : Type} {m : Nat} {data : β → List Datum}
    {f : Parsed (Option String) (ts.length + 1) → Parse β m} (hq : context.isQuiet = true)
    (hf : ∀ name rest h after, after.isQuiet = true →
      Carries (done ++ (name.map Datum.name).toList) data after rest Q (f ⟨name, rest, h⟩)) :
    Carries done data context ts Q (optionalName ts >>= f) := by
  refine optionalName_carries.bind fun name rest h after ds hd hafter => ?_
  obtain rfl : ds = _ := hd.symm
  refine hf name rest h after ?_
  obtain rfl | hafter := hafter
  exacts [hq, hafter]

/-- A reserved word that begins something. -/
theorem Carries.word {w : Keyword} {span : Span} {x : Parse α n} (hw : w.isValue = false)
    (hm : context ≠ .member) (hr : Refuses (.mark .colon) more x) (h : Carries done data .plain more Q x) :
    Carries done data context (⟨.keyword w, span⟩ :: more) Q x := by
  refine .skipWord (fun _ hn => Context.keeps_word hw hm hn) hr ?_
  cases context <;> exact h

theorem parameters_carries : Carries [] (fun xs => xs.map Datum.name) context ts (·.isQuiet)
    (parameters ts) := by
  suffices h : ∀ (n : Nat) (ts : List Token) (context : Context), ts.length < n →
      Carries [] (fun xs => xs.map Datum.name) context ts (·.isQuiet) (parameters ts) from
    h _ ts context (Nat.lt_succ_self _)
  intro n
  induction n with
  | zero => exact fun _ _ h => absurd h (Nat.not_lt_zero _)
  | succ n ih =>
    intro ts context hlt
    unfold parameters
    split
    · exact .skip rfl (.pure rfl (by cases context <;> rfl))
    · rename_i name _ _ more
      refine .keep rfl (.name _) (.skip rfl ((ih more _ ?_).bind fun others rest h after ds hd hq => ?_))
      · simp only [List.length_cons] at hlt
        omega
      · exact .pure (by simpa using hd) hq
    · rename_i name _ more _
      exact .keep rfl (.name _) (.marked fun _ rest h => .pure rfl (by cases context <;> rfl))
    · exact .error

theorem head_of_expectMark {β : Type} {m : Nat} {mark : Mark} {f : Parsed Span ts.length → Parse β m}
    {r : Parsed β m} (h : expectMark mark ts >>= f = .ok r) :
    ts.head?.map Token.kind = some (.mark mark) := by
  unfold expectMark expect at h
  split at h
  · split at h
    · rename_i ht
      exact congrArg some ht
    · cases h
  · cases h

/-- The key of an entry in front of a colon. -/
theorem Carries.key {β : Type} {m : Nat} {data : β → List Datum}
    {f : Parsed (String × Span) ts.length → Parse β m}
    (hcolon : ∀ p r, f p = .ok r → p.rest.head?.map Token.kind = some (.mark .colon))
    (hf : ∀ key rest h, Carries (done ++ [.key key.1]) data .plain rest Q (f ⟨key, rest, h⟩)) :
    Carries done data .entry ts Q (entryKey ts >>= f) := by
  intro r hr
  unfold entryKey propertyName at hr
  split at hr
  · exact Carries.keep rfl (.keyText _) (hf _ _ _) r hr
  · exact Carries.keep rfl (.keyNumber _) (hf _ _ _) r hr
  · split at hr
    · exact Carries.keep rfl (.key _) (hf _ _ _) r hr
    · have hk := hcolon _ r hr
      exact Carries.keep (by simp [Context.keeps, hk]) (.keyWord _) (hf _ _ _) r hr
    · cases hr

end Tokens

end Hoist
