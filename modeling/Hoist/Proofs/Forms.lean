import Hoist.Proofs.Legible

namespace Hoist

/-- What holds of a shape when it holds of its children holds of all. -/
theorem Shape.induct {P : Shape → Prop}
    (node : ∀ kind constant ss, (∀ s ∈ ss, P s) → P (.node kind constant ss)) : (s : Shape) → P s
  | .node kind constant ss => node kind constant ss fun s _ => induct node s

/-- The shapes that a shape is made of. -/
def Shape.inside : Shape → List Shape
  | .node _ _ ss => ss ++ ss.flatMap inside

theorem Shape.inside_child {s c : Shape} (h : c ∈ s.children) : c ∈ s.inside := by
  obtain ⟨kind, constant, ss⟩ := s
  rw [inside]
  exact List.mem_append_left _ h

theorem Shape.inside_trans {s c d : Shape} (h : c ∈ s.children) (hd : d ∈ c.inside) : d ∈ s.inside := by
  obtain ⟨kind, constant, ss⟩ := s
  rw [inside]
  exact List.mem_append_right _ (List.mem_flatMap.mpr ⟨c, h, hd⟩)

/-- What holds of a shape when it holds of all that the shape is made of holds of all. -/
theorem Shape.induct_inside {P : Shape → Prop} (step : ∀ s, (∀ d ∈ s.inside, P d) → P s) (s : Shape) :
    P s := by
  suffices h : P s ∧ ∀ d ∈ s.inside, P d from h.1
  induction s using Shape.induct with
  | node kind constant ss ih =>
    have hinside : ∀ d ∈ (Shape.node kind constant ss).inside, P d := by
      intro d hd
      rw [inside] at hd
      rcases List.mem_append.mp hd with hd | hd
      · exact (ih d hd).1
      · obtain ⟨c, hc, hd⟩ := List.mem_flatMap.mp hd
        exact (ih c hc).2 d hd
    exact ⟨step _ hinside, hinside⟩

/-- Whether a node of this kind is a literal that is not made of others. -/
def Kind.isLiteral : Kind → Bool
  | .number _ | .text _ | .true_ | .false_ | .null | .this_ => true
  | _ => false

/-- Whether a node of this kind has two operands that are both expressions. -/
def Kind.isInfix : Kind → Bool
  | .comma | .or_ | .and_ | .binary _ => true
  | _ => false

/-- Whether a node of this kind assigns a value to a target. -/
def Kind.isAssignment : Kind → Bool
  | .assign | .assignOp _ => true
  | _ => false

/-- How an expression is made. -/
inductive ExpressionForm (P : Kind → Bool) : Shape → Prop
  | name (x : String) (constant : Bool) (h : P (.name x) = true) :
    ExpressionForm P (.node (.name x) constant [])
  | literal {kind : Kind} (constant : Bool) (hk : kind.isLiteral = true) (h : P kind = true) :
    ExpressionForm P (.node kind constant [])
  | array (constant : Bool) (ss : List Shape) (h : ∀ s ∈ ss, s.Made P .expression) :
    ExpressionForm P (.node .array constant ss)
  | object (constant : Bool) (ss : List Shape) (h : ∀ s ∈ ss, s.Made P .entry) :
    ExpressionForm P (.node .object constant ss)
  | function (name : Option String) (params : List String) (constant : Bool) (body : Shape)
    (h : P (.function name params) = true) (hb : body.Made P .block) :
    ExpressionForm P (.node (.function name params) constant [body])
  | call (constant : Bool) (callee : Shape) (ss : List Shape) (hc : callee.Made P .expression)
    (h : ∀ s ∈ ss, s.Made P .expression) : ExpressionForm P (.node .call constant (callee :: ss))
  | new (constant : Bool) (callee : Shape) (ss : List Shape) (hc : callee.Made P .expression)
    (h : ∀ s ∈ ss, s.Made P .expression) : ExpressionForm P (.node .new constant (callee :: ss))
  | property (x : String) (constant : Bool) (object : Shape) (h : P (.property x) = true)
    (ho : object.Made P .expression) : ExpressionForm P (.node (.property x) constant [object])
  | element (constant : Bool) (object key : Shape) (ho : object.Made P .expression)
    (hk : key.Made P .expression) : ExpressionForm P (.node .element constant [object, key])
  | assignment {kind : Kind} (constant : Bool) (target value : Shape) (hk : kind.isAssignment = true)
    (h : P kind = true) (ht : target.Made P .target) (hv : value.Made P .expression) :
    ExpressionForm P (.node kind constant [target, value])
  | conditional (constant : Bool) (a b c : Shape) (ha : a.Made P .expression)
    (hb : b.Made P .expression) (hc : c.Made P .expression) :
    ExpressionForm P (.node .conditional constant [a, b, c])
  | pair {kind : Kind} (constant : Bool) (a b : Shape) (hk : kind.isInfix = true)
    (ha : a.Made P .expression) (hb : b.Made P .expression) :
    ExpressionForm P (.node kind constant [a, b])
  | unary (op : UnaryOp) (constant : Bool) (a : Shape) (ha : a.Made P .expression) :
    ExpressionForm P (.node (.unary op) constant [a])
  | increment (isDecrement isPostfix : Bool) (constant : Bool) (a : Shape) (ha : a.Made P .target) :
    ExpressionForm P (.node (.increment isDecrement isPostfix) constant [a])

namespace Shape

variable {P : Kind → Bool} {s : Shape}

theorem forall_of_replicate {slot : Slot} {n : Nat} {ss : List Shape}
    (h : List.Forall₂ (Made P) (List.replicate n slot) ss) : ∀ s ∈ ss, s.Made P slot := by
  induction n generalizing ss with
  | zero =>
    cases h
    simp
  | succ n ih =>
    rw [List.replicate_succ] at h
    cases h with
    | cons hs hrest => exact List.forall_mem_cons.mpr ⟨hs, ih hrest⟩

theorem parts_one {kind : Kind} {slot : Slot} {slots : List Slot} {ss : List Shape}
    (hone : ∀ n, n ≠ 1 → kind.parts n = none) (hslot : kind.parts 1 = some [slot])
    (hp : kind.parts ss.length = some slots) (hs : List.Forall₂ (Made P) slots ss) :
    ∃ a, ss = [a] ∧ a.Made P slot := by
  by_cases hn : ss.length = 1
  · obtain ⟨a, rfl⟩ := List.length_eq_one_iff.mp hn
    obtain rfl := Option.some.inj (hp.symm.trans hslot)
    exact ⟨a, rfl, (List.forall₂_cons.mp hs).1⟩
  · rw [hone _ hn] at hp
    cases hp

theorem parts_two {kind : Kind} {first second : Slot} {slots : List Slot} {ss : List Shape}
    (htwo : ∀ n, n ≠ 2 → kind.parts n = none) (hslots : kind.parts 2 = some [first, second])
    (hp : kind.parts ss.length = some slots) (hs : List.Forall₂ (Made P) slots ss) :
    ∃ a b, ss = [a, b] ∧ a.Made P first ∧ b.Made P second := by
  by_cases hn : ss.length = 2
  · obtain ⟨a, b, rfl⟩ := List.length_eq_two.mp hn
    obtain rfl := Option.some.inj (hp.symm.trans hslots)
    obtain ⟨ha, hrest⟩ := List.forall₂_cons.mp hs
    exact ⟨a, b, rfl, ha, (List.forall₂_cons.mp hrest).1⟩
  · rw [htwo _ hn] at hp
    cases hp

theorem parts_any {kind : Kind} {slot : Slot} {slots : List Slot} {ss : List Shape}
    (hany : ∀ n, kind.parts n = some (List.replicate n slot))
    (hp : kind.parts ss.length = some slots) (hs : List.Forall₂ (Made P) slots ss) :
    ∀ s ∈ ss, s.Made P slot := by
  obtain rfl := Option.some.inj (hp.symm.trans (hany _))
  exact forall_of_replicate hs

theorem parts_some {kind : Kind} {first slot : Slot} {slots : List Slot} {ss : List Shape}
    (hzero : kind.parts 0 = none) (hsome : ∀ n, kind.parts (n + 1) = some (first :: List.replicate n slot))
    (hp : kind.parts ss.length = some slots) (hs : List.Forall₂ (Made P) slots ss) :
    ∃ a rest, ss = a :: rest ∧ a.Made P first ∧ ∀ s ∈ rest, s.Made P slot := by
  cases ss with
  | nil =>
    rw [List.length_nil, hzero] at hp
    cases hp
  | cons a rest =>
    obtain rfl := Option.some.inj (hp.symm.trans (hsome _))
    obtain ⟨ha, hrest⟩ := List.forall₂_cons.mp hs
    exact ⟨a, rest, rfl, ha, forall_of_replicate hrest⟩

theorem parts_three {kind : Kind} {first second third : Slot} {slots : List Slot} {ss : List Shape}
    (hthree : ∀ n, n ≠ 3 → kind.parts n = none) (hslots : kind.parts 3 = some [first, second, third])
    (hp : kind.parts ss.length = some slots) (hs : List.Forall₂ (Made P) slots ss) :
    ∃ a b c, ss = [a, b, c] ∧ a.Made P first ∧ b.Made P second ∧ c.Made P third := by
  by_cases hn : ss.length = 3
  · obtain ⟨a, b, c, rfl⟩ := List.length_eq_three.mp hn
    obtain rfl := Option.some.inj (hp.symm.trans hslots)
    obtain ⟨ha, hrest⟩ := List.forall₂_cons.mp hs
    obtain ⟨hb, hlast⟩ := List.forall₂_cons.mp hrest
    exact ⟨a, b, c, rfl, ha, hb, (List.forall₂_cons.mp hlast).1⟩
  · rw [hthree _ hn] at hp
    cases hp

/-- An expression is made in one of these ways. -/
theorem Made.form (h : s.Made P .expression) : ExpressionForm P s := by
  obtain ⟨kind, constant, ss⟩ := s
  obtain ⟨hadmits, hk, slots, hp, hs⟩ := h.node
  cases kind with
  | name x =>
    obtain rfl : ss = [] := by
      have hn : (false || decide (ss.length = 0)) = true := hadmits
      exact List.eq_nil_of_length_eq_zero (by simpa using hn)
    exact .name x constant hk
  | array => exact .array constant ss (parts_any (fun _ => rfl) hp hs)
  | object => exact .object constant ss (parts_any (fun _ => rfl) hp hs)
  | function name params =>
    obtain ⟨a, rfl, ha⟩ := parts_one (by rintro (_ | _ | n) <;> simp [Kind.parts]) rfl hp hs
    exact .function name params constant a hk ha
  | call =>
    obtain ⟨a, rest, rfl, ha, hrest⟩ := parts_some rfl (fun _ => rfl) hp hs
    exact .call constant a rest ha hrest
  | new =>
    obtain ⟨a, rest, rfl, ha, hrest⟩ := parts_some rfl (fun _ => rfl) hp hs
    exact .new constant a rest ha hrest
  | property x =>
    obtain ⟨a, rfl, ha⟩ := parts_one (by rintro (_ | _ | n) <;> simp [Kind.parts]) rfl hp hs
    exact .property x constant a hk ha
  | unary op =>
    obtain ⟨a, rfl, ha⟩ := parts_one (by rintro (_ | _ | n) <;> simp [Kind.parts]) rfl hp hs
    exact .unary op constant a ha
  | increment isDecrement isPostfix =>
    obtain ⟨a, rfl, ha⟩ := parts_one (by rintro (_ | _ | n) <;> simp [Kind.parts]) rfl hp hs
    exact .increment isDecrement isPostfix constant a ha
  | element =>
    obtain ⟨a, b, rfl, ha, hb⟩ := parts_two (by rintro (_ | _ | _ | n) <;> simp [Kind.parts]) rfl hp hs
    exact .element constant a b ha hb
  | assign | assignOp =>
    obtain ⟨a, b, rfl, ha, hb⟩ := parts_two (by rintro (_ | _ | _ | n) <;> simp [Kind.parts]) rfl hp hs
    exact .assignment constant a b rfl hk ha hb
  | and_ | or_ | binary | comma =>
    obtain ⟨a, b, rfl, ha, hb⟩ := parts_two (by rintro (_ | _ | _ | n) <;> simp [Kind.parts]) rfl hp hs
    exact .pair constant a b rfl ha hb
  | conditional =>
    obtain ⟨a, b, c, rfl, ha, hb, hc⟩ := parts_three
      (by rintro (_ | _ | _ | _ | n) <;> simp [Kind.parts]) rfl hp hs
    exact .conditional constant a b c ha hb hc
  | number | text | true_ | false_ | null | this_ =>
    obtain rfl : ss = [] := by
      cases ss with
      | nil => rfl
      | cons => simp [Kind.parts] at hp
    exact .literal constant rfl hk
  | _ => cases hadmits

/-- What can stand in one place can stand in another that admits its kind. -/
theorem Made.admitted {slot other : Slot} (h : s.Made P slot)
    (ha : ∀ n, slot.admits false s.kind n = true → other.admits false s.kind n = true) :
    s.Made P other := by
  obtain ⟨kind, constant, ss⟩ := s
  have hfits := fits_node.mp h.fits
  exact ⟨fits_node.mpr ⟨ha _ hfits.1, hfits.2⟩, h.all⟩

theorem Made.isExpression (h : s.Made P .expression) :
    s.kind.isExpression s.children.length = true := by
  obtain ⟨kind, constant, ss⟩ := s
  exact h.node.1

theorem Made.kind_of_target (h : s.Made P .target) : s.kind.isTarget = true := by
  obtain ⟨kind, constant, ss⟩ := s
  exact (Bool.and_eq_true_iff.mp h.node.1).1

theorem Made.expression_of_target (h : s.Made P .target) : s.Made P .expression :=
  h.admitted fun _ ha => (Bool.and_eq_true_iff.mp ha).2

theorem Made.statement (h : s.Made P .block) : s.Made P .statement := by
  refine h.admitted fun n ha => ?_
  cases hk : s.kind <;> rw [hk] at ha <;> first | rfl | cases ha

theorem Made.expression_of_value (h : s.Made P .value) : s.Made P .expression := by
  refine h.admitted fun n ha => ?_
  cases hk : s.kind <;> rw [hk] at ha <;> exact ha

/-- An entry is a key with a value. -/
theorem Made.entry (h : s.Made P .entry) : ∃ (x : String) (constant : Bool) (value : Shape),
    s = .node (.key x) constant [value] ∧ value.Made P .expression := by
  obtain ⟨kind, constant, ss⟩ := s
  obtain ⟨hadmits, hk, slots, hp, hs⟩ := h.node
  cases kind with
  | key x =>
    obtain ⟨a, rfl, ha⟩ := parts_one (by rintro (_ | _ | n) <;> simp [Kind.parts]) rfl hp hs
    exact ⟨x, constant, a, rfl, ha⟩
  | _ => cases hadmits

/-- A declarator is a name, perhaps with an initial value. -/
theorem Made.declarator (h : s.Made P .declarator) : ∃ (x : String) (constant : Bool)
    (values : List Shape), s = .node (.name x) constant values ∧ P (.name x) = true ∧
      (values = [] ∨ ∃ value, values = [value] ∧ value.Made P .expression) := by
  obtain ⟨kind, constant, ss⟩ := s
  obtain ⟨hadmits, hk, slots, hp, hs⟩ := h.node
  cases kind with
  | name x =>
    refine ⟨x, constant, ss, rfl, hk, ?_⟩
    match ss, hp, hs with
    | [], _, _ => exact .inl rfl
    | [value], hp, hs =>
      obtain rfl := Option.some.inj hp
      exact .inr ⟨value, rfl, (List.forall₂_cons.mp hs).1.expression_of_value⟩
    | _ :: _ :: _, hp, _ => cases hp
  | _ => cases hadmits

theorem Made.block (h : s.Made P .block) : ∃ (constant : Bool) (ss : List Shape),
    s = .node .block constant ss ∧ ∀ s ∈ ss, s.Made P .statement := by
  obtain ⟨kind, constant, ss⟩ := s
  obtain ⟨hadmits, hk, slots, hp, hs⟩ := h.node
  cases kind with
  | block => exact ⟨constant, ss, rfl, parts_any (fun _ => rfl) hp hs⟩
  | _ => cases hadmits

/-- A clause has a test or is the default. -/
theorem Made.clause (h : s.Made P .clause) : ∃ (constant : Bool) (body : Shape),
    body.Made P .block ∧ ((∃ test : Shape, s = .node .case_ constant [test, body] ∧
      test.Made P .expression) ∨ s = .node .default_ constant [body]) := by
  obtain ⟨kind, constant, ss⟩ := s
  obtain ⟨hadmits, hk, slots, hp, hs⟩ := h.node
  cases kind with
  | case_ =>
    obtain ⟨a, b, rfl, ha, hb⟩ := parts_two (by rintro (_ | _ | _ | n) <;> simp [Kind.parts]) rfl hp hs
    exact ⟨constant, b, hb, .inl ⟨a, rfl, ha⟩⟩
  | default_ =>
    obtain ⟨a, rfl, ha⟩ := parts_one (by rintro (_ | _ | n) <;> simp [Kind.parts]) rfl hp hs
    exact ⟨constant, a, ha, .inr rfl⟩
  | _ => cases hadmits

/-- A part of the header of a loop that can be left out. -/
theorem Made.optional (h : s.Made P .optional) :
    (∃ constant, s = .node .empty constant []) ∨ s.Made P .expression := by
  obtain ⟨kind, constant, ss⟩ := s
  obtain ⟨hadmits, hk, slots, hp, hs⟩ := h.node
  by_cases hkind : kind = .empty
  · subst hkind
    cases ss with
    | nil => exact .inl ⟨constant, rfl⟩
    | cons => cases hp
  · refine .inr (h.admitted fun n ha => ?_)
    cases kind <;> first | exact absurd rfl hkind | exact ha

/-- The initializer of a loop is left out, declares names or is an expression. -/
theorem Made.initial (h : s.Made P .initial) : (∃ constant, s = .node .empty constant []) ∨
    (∃ (constant : Bool) (ss : List Shape), s = .node .var constant ss ∧ ss ≠ [] ∧
      ∀ d ∈ ss, d.Made P .declarator) ∨ s.Made P .expression := by
  obtain ⟨kind, constant, ss⟩ := s
  obtain ⟨hadmits, hk, slots, hp, hs⟩ := h.node
  by_cases hempty : kind = .empty
  · subst hempty
    cases ss with
    | nil => exact .inl ⟨constant, rfl⟩
    | cons => cases hp
  by_cases hvar : kind = .var
  · subst hvar
    obtain ⟨a, rest, rfl, ha, hrest⟩ := parts_some rfl (fun _ => rfl) hp hs
    exact .inr (.inl ⟨constant, a :: rest, rfl, List.cons_ne_nil _ _,
      List.forall_mem_cons.mpr ⟨ha, hrest⟩⟩)
  · refine .inr (.inr (h.admitted fun n ha => ?_))
    cases kind <;> first | exact absurd rfl hempty | exact absurd rfl hvar | exact ha

end Shape

/-- Whether a node of this kind jumps somewhere. -/
def Kind.jump? : Kind → Option (Keyword × Option String)
  | .break_ x => some (.break_, x)
  | .continue_ x => some (.continue_, x)
  | _ => none

/-- How a statement is made. -/
inductive StatementForm (P : Kind → Bool) : Shape → Prop
  | block (constant : Bool) (ss : List Shape) (h : ∀ s ∈ ss, s.Made P .statement) :
    StatementForm P (.node .block constant ss)
  | expression (constant : Bool) (e : Shape) (he : e.Made P .expression) :
    StatementForm P (.node .expression constant [e])
  | var (constant : Bool) (d : Shape) (hd : d.Made P .declarator) :
    StatementForm P (.node .var constant [d])
  | if_ (constant : Bool) (condition first : Shape) (hc : condition.Made P .expression)
    (hf : first.Made P .block) : StatementForm P (.node .if_ constant [condition, first])
  | ifElse (constant : Bool) (condition first second : Shape) (hc : condition.Made P .expression)
    (hf : first.Made P .block) (hs : second.Made P .block) :
    StatementForm P (.node .if_ constant [condition, first, second])
  | return_ (constant : Bool) : StatementForm P (.node .return_ constant [])
  | returnValue (constant : Bool) (e : Shape) (he : e.Made P .expression) :
    StatementForm P (.node .return_ constant [e])
  | switch (constant : Bool) (value : Shape) (ss : List Shape) (hv : value.Made P .expression)
    (h : ∀ s ∈ ss, s.Made P .clause) : StatementForm P (.node .switch constant (value :: ss))
  | label (x : String) (constant : Bool) (s : Shape) (hx : P (.label x) = true)
    (hs : s.Made P .statement) : StatementForm P (.node (.label x) constant [s])
  | while_ (constant : Bool) (condition body : Shape) (hc : condition.Made P .expression)
    (hb : body.Made P .block) : StatementForm P (.node .while_ constant [condition, body])
  | doWhile (constant : Bool) (body condition : Shape) (hb : body.Made P .block)
    (hc : condition.Made P .expression) : StatementForm P (.node .doWhile constant [body, condition])
  | for_ (constant : Bool) (first condition update body : Shape) (hf : first.Made P .initial)
    (hc : condition.Made P .optional) (hu : update.Made P .optional) (hb : body.Made P .block) :
    StatementForm P (.node .for_ constant [first, condition, update, body])
  | jump {kind : Kind} {keyword : Keyword} {label : Option String} (constant : Bool)
    (hk : kind.jump? = some (keyword, label)) (h : P kind = true) :
    StatementForm P (.node kind constant [])
  | throw (constant : Bool) (e : Shape) (he : e.Made P .expression) :
    StatementForm P (.node .throw constant [e])
  | empty (constant : Bool) : StatementForm P (.node .empty constant [])
  | function (name : Option String) (params : List String) (constant : Bool) (body : Shape)
    (h : P (.function name params) = true) (hb : body.Made P .block) :
    StatementForm P (.node (.function name params) constant [body])

namespace Shape

variable {P : Kind → Bool} {s : Shape}

theorem parts_leaf {kind : Kind} {slots : List Slot} {ss : List Shape}
    (hleaf : ∀ n, kind.parts (n + 1) = none) (hp : kind.parts ss.length = some slots) : ss = [] := by
  cases ss with
  | nil => rfl
  | cons =>
    rw [List.length_cons, hleaf] at hp
    cases hp

/-- A statement is made in one of these ways. -/
theorem Made.statementForm (h : s.Made P .statement) : StatementForm P s := by
  obtain ⟨kind, constant, ss⟩ := s
  obtain ⟨hadmits, hk, slots, hp, hs⟩ := h.node
  cases kind with
  | block => exact .block constant ss (parts_any (fun _ => rfl) hp hs)
  | expression =>
    obtain ⟨a, rfl, ha⟩ := parts_one (by rintro (_ | _ | n) <;> simp [Kind.parts]) rfl hp hs
    exact .expression constant a ha
  | var =>
    obtain ⟨a, rest, rfl, ha, -⟩ := parts_some rfl (fun _ => rfl) hp hs
    have hn : (a :: rest).length = 1 := of_decide_eq_true hadmits
    obtain rfl := List.eq_nil_of_length_eq_zero (Nat.succ.inj hn)
    exact .var constant a ha
  | if_ =>
    match ss, hp, hs with
    | [], hp, _ | [_], hp, _ | _ :: _ :: _ :: _ :: _, hp, _ => cases hp
    | [a, b], hp, hs =>
      obtain rfl := Option.some.inj hp
      obtain ⟨ha, hrest⟩ := List.forall₂_cons.mp hs
      exact .if_ constant a b ha (List.forall₂_cons.mp hrest).1
    | [a, b, c], hp, hs =>
      obtain rfl := Option.some.inj hp
      obtain ⟨ha, hrest⟩ := List.forall₂_cons.mp hs
      obtain ⟨hb, hlast⟩ := List.forall₂_cons.mp hrest
      exact .ifElse constant a b c ha hb (List.forall₂_cons.mp hlast).1
  | return_ =>
    cases ss with
    | nil => exact .return_ constant
    | cons a rest =>
      cases rest with
      | nil =>
        obtain rfl := Option.some.inj hp
        exact .returnValue constant a (List.forall₂_cons.mp hs).1
      | cons => cases hp
  | switch =>
    obtain ⟨a, rest, rfl, ha, hrest⟩ := parts_some rfl (fun _ => rfl) hp hs
    exact .switch constant a rest ha hrest
  | label x =>
    obtain ⟨a, rfl, ha⟩ := parts_one (by rintro (_ | _ | n) <;> simp [Kind.parts]) rfl hp hs
    exact .label x constant a hk ha
  | while_ =>
    obtain ⟨a, b, rfl, ha, hb⟩ := parts_two (by rintro (_ | _ | _ | n) <;> simp [Kind.parts]) rfl hp hs
    exact .while_ constant a b ha hb
  | doWhile =>
    obtain ⟨a, b, rfl, ha, hb⟩ := parts_two (by rintro (_ | _ | _ | n) <;> simp [Kind.parts]) rfl hp hs
    exact .doWhile constant a b ha hb
  | for_ =>
    match ss, hp, hs with
    | [], hp, _ | [_], hp, _ | [_, _], hp, _ | [_, _, _], hp, _ | _ :: _ :: _ :: _ :: _ :: _, hp, _ =>
      cases hp
    | [a, b, c, d], hp, hs =>
      obtain rfl := Option.some.inj hp
      obtain ⟨ha, hrest⟩ := List.forall₂_cons.mp hs
      obtain ⟨hb, hrest⟩ := List.forall₂_cons.mp hrest
      obtain ⟨hc, hrest⟩ := List.forall₂_cons.mp hrest
      exact .for_ constant a b c d ha hb hc (List.forall₂_cons.mp hrest).1
  | break_ | continue_ =>
    obtain rfl := parts_leaf (fun _ => rfl) hp
    exact .jump constant rfl hk
  | throw =>
    obtain ⟨a, rfl, ha⟩ := parts_one (by rintro (_ | _ | n) <;> simp [Kind.parts]) rfl hp hs
    exact .throw constant a ha
  | empty =>
    obtain rfl := parts_leaf (fun _ => rfl) hp
    exact .empty constant
  | function name params =>
    obtain ⟨a, rfl, ha⟩ := parts_one (by rintro (_ | _ | n) <;> simp [Kind.parts]) rfl hp hs
    exact .function name params constant a hk ha
  | _ => cases hadmits

end Shape

end Hoist
