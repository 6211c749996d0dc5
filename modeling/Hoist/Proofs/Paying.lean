import Hoist.Proofs.ExpressionData
import Hoist.Proofs.Grouping
import Hoist.Proofs.Parentheses
import Hoist.Proofs.Reading

namespace Hoist

namespace Draft

/-- A draft is one node that needs at most so many parentheses that enclose something. Those around
the node itself are counted where the flag says so. -/
def Costs (around : Shape → Bool) (d : Draft) (n : Nat) : Prop :=
  ∃ s, d.shapes = [s] ∧ s.groups + (around s).toNat ≤ n

/-- Drafts need at most so many parentheses that enclose something in places that ask for a
level. -/
def AllCost (level : Nat) (ds : List Draft) (n : Nat) : Prop :=
  Shape.groupsAll level level (allShapes ds) ≤ n

/-- Operands between parentheses need at most so many, those around them included. -/
def ListCost (ds : List Draft) (n : Nat) : Prop :=
  (!(allShapes ds).isEmpty).toNat + Shape.groupsAll assignLevel assignLevel (allShapes ds) ≤ n

variable {around : Shape → Bool} {d : Draft} {ds : List Draft} {m n level : Nat} {free : Bool}
  {kind : Kind} {span : Span} {before after : List Draft}

theorem Costs.imp {other : Shape → Bool} (h : d.Costs around n)
    (ho : ∀ s, other s = true → around s = true) : d.Costs other n := by
  obtain ⟨s, hs, hn⟩ := h
  refine ⟨s, hs, Nat.le_trans (Nat.add_le_add_left ?_ _) hn⟩
  cases hother : other s with
  | false => exact Nat.zero_le _
  | true => rw [ho s hother]

theorem Costs.mono (h : d.Costs around m) (hn : m ≤ n) : d.Costs around n := by
  obtain ⟨s, hs, hm⟩ := h
  exact ⟨s, hs, Nat.le_trans hm hn⟩

/-- What is in parentheses can stand anywhere. -/
theorem Costs.anywhere (h : d.Costs (fun _ => true) n) : d.Costs around n :=
  h.imp fun _ _ => rfl

/-- What is around a node need not be counted. -/
theorem Costs.inside (h : d.Costs around n) : d.Costs (fun _ => false) n :=
  h.imp fun _ hf => absurd hf Bool.false_ne_true

/-- What was free is in parentheses for one more. -/
theorem Costs.enclosed (h : d.Costs around n) : d.Costs (fun _ => true) (n + 1) := by
  obtain ⟨s, hs, hn⟩ := h
  refine ⟨s, hs, ?_⟩
  rw [Bool.toNat_true]
  omega

/-- What is in parentheses has paid for these. -/
theorem Costs.paid (h : d.Costs (fun _ => true) n) : ∃ m, n = m + 1 ∧ AllCost commaLevel [d] m := by
  obtain ⟨s, hs, hn⟩ := h
  rw [Bool.toNat_true] at hn
  refine ⟨n - 1, by omega, ?_⟩
  rw [AllCost, allShapes, allShapes, hs, List.append_nil, Shape.groupsAll_cons,
    Shape.groupsAll_nil, Shape.groupsAt_commaLevel]
  omega

theorem Costs.lower {other : Nat} (h : d.Costs (Shape.held level free) n) (hl : other ≤ level) :
    d.Costs (Shape.held other free) n :=
  h.imp fun _ => Shape.held_mono hl

/-- A target binds tightly enough for every place of a target. -/
theorem Costs.target {other : Nat} (h : d.Costs (Shape.held level free) n)
    (ht : d.kind.isTarget = true) (hl : other ≤ callLevel) : d.Costs (Shape.held other free) n := by
  obtain ⟨s, hs, hn⟩ := h
  refine ⟨s, hs, Nat.le_trans (Nat.add_le_add_left ?_ _) hn⟩
  have hlevel : callLevel ≤ s.level := by
    rw [← kind_of_shapes hs] at ht
    exact Kind.le_level_of_isTarget ht
  rw [Shape.held, Shape.held, decide_eq_false (Nat.not_lt.mpr (Nat.le_trans hl hlevel)),
    Bool.false_or]
  cases !free && s.leads <;> simp

@[simp] theorem allCost_nil : AllCost level [] 0 := by
  rw [AllCost, allShapes, Shape.groupsAll_nil]

theorem AllCost.cons (hd : AllCost level [d] m) (hds : AllCost level ds n) :
    AllCost level (d :: ds) (m + n) := by
  rw [AllCost, allShapes, allShapes, List.append_nil] at hd
  rw [AllCost, allShapes, Shape.groupsAll_append]
  exact Nat.add_le_add hd hds

theorem AllCost.mono (h : AllCost level ds m) (hn : m ≤ n) : AllCost level ds n :=
  Nat.le_trans h hn

theorem Costs.all (h : d.Costs (Shape.held level free) n) : AllCost level [d] n := by
  obtain ⟨s, hs, hn⟩ := h
  have hheld : (decide (s.level < level)).toNat ≤ (s.held level free).toNat := by
    cases hl : decide (s.level < level) with
    | false => exact Nat.zero_le _
    | true => rw [Shape.held_of_level hl]
  rw [AllCost, allShapes, allShapes, hs, List.append_nil, Shape.groupsAll_cons,
    Shape.groupsAll_nil, Shape.groupsAt]
  omega

/-- A statement is never put in parentheses. -/
theorem Costs.statement (h : d.Costs around n) : AllCost commaLevel [d] n := by
  obtain ⟨s, hs, hn⟩ := h
  rw [AllCost, allShapes, allShapes, hs, List.append_nil, Shape.groupsAll_cons,
    Shape.groupsAll_nil, Shape.groupsAt_commaLevel]
  omega

/-- A node that does not begin with its first child needs no parentheses where its level is not
too low. -/
theorem Costs.held (h : d.Costs (fun _ => false) n) (hk : d.kind.isLeftOpen = false)
    (hl : level ≤ d.kind.level?.getD primaryLevel) (hf : d.kind.isLeading = true → free = true) :
    d.Costs (Shape.held level free) n := by
  obtain ⟨s, hs, hn⟩ := h
  have hkind := kind_of_shapes hs
  refine ⟨s, hs, ?_⟩
  rwa [Shape.held_closed (hkind ▸ hk) (by rw [Shape.level, hkind]; exact hl) (hkind ▸ hf)]

theorem Costs.chained {calls : Bool} (h : d.Costs (fun _ => false) n)
    (hk : d.kind.isLeftOpen = false) (hl : callLevel ≤ d.kind.level?.getD primaryLevel)
    (hf : d.kind.isLeading = true → free = true) : d.Costs (Shape.chained calls free) n := by
  obtain ⟨s, hs, hn⟩ := h
  have hkind := kind_of_shapes hs
  refine ⟨s, hs, ?_⟩
  rwa [Shape.chained_closed (hkind ▸ hk) (by rw [Shape.level, hkind]; exact hl) (hkind ▸ hf)]

/-- A node whose places all ask for one level. -/
theorem costs_uniform {own : Nat} (hown : ∀ ss, Shape.ownGroups kind ss = own)
    (hfirst : kind.firstLevel = level) (hothers : kind.otherLevel = level)
    (hb : AllCost level before m) (ha : AllCost level after n) :
    (Draft.node kind span before after).Costs (fun _ => false) (own + m + n) := by
  refine ⟨_, by rw [shapes], ?_⟩
  rw [Shape.groups_node, hown, hfirst, hothers, Shape.groupsAll_append, Bool.toNat_false]
  have := Nat.add_le_add hb ha
  omega

theorem costs_before (hown : ∀ ss, Shape.ownGroups kind ss = 0) (hfirst : kind.firstLevel = level)
    (hothers : kind.otherLevel = level) (hb : AllCost level before n) :
    (Draft.node kind span before []).Costs (fun _ => false) n :=
  (costs_uniform hown hfirst hothers hb allCost_nil).mono (by omega)

theorem costs_after (hown : ∀ ss, Shape.ownGroups kind ss = 0) (hfirst : kind.firstLevel = level)
    (hothers : kind.otherLevel = level) (ha : AllCost level after n) :
    (Draft.node kind span [] after).Costs (fun _ => false) n :=
  (costs_uniform hown hfirst hothers allCost_nil ha).mono (by omega)

/-- A node with one child. -/
theorem costs_one {inner : Draft} (hown : ∀ ss, Shape.ownGroups kind ss = 0)
    (hi : inner.Costs (Shape.held kind.firstLevel free) n) :
    (Draft.node kind span [inner] []).Costs (fun _ => false) n := by
  have hall := hi.all
  obtain ⟨s, hs, -⟩ := hi
  rw [AllCost, allShapes, allShapes, List.append_nil, hs, Shape.groupsAll_cons,
    Shape.groupsAll_nil] at hall
  refine ⟨.node kind kind.isConstant [s], by simp [shapes, allShapes, hs], ?_⟩
  rw [Shape.groups_node, hown, Shape.groupsAll_cons, Shape.groupsAll_nil, Bool.toNat_false]
  omega

/-- A node with one child that is made after it. -/
theorem costs_last {inner : Draft} (hown : ∀ ss, Shape.ownGroups kind ss = 0)
    (hi : inner.Costs (Shape.held kind.firstLevel free) n) :
    (Draft.node kind span [] [inner]).Costs (fun _ => false) n := by
  have hone : (Draft.node kind span [inner] []).Costs (fun _ => false) n := costs_one hown hi
  obtain ⟨s, hs, hn⟩ := hone
  exact ⟨s, by simpa [shapes, allShapes] using hs, hn⟩

theorem costs_leaf (hown : ∀ ss, Shape.ownGroups kind ss = 0) :
    (Draft.leaf kind span).Costs (fun _ => false) 0 := by
  refine ⟨.node kind kind.isConstant [], by simp [leaf, shapes, allShapes], ?_⟩
  rw [Shape.groups_node, hown, Shape.groupsAll_nil]
  rfl

/-- A node that begins with its first child. -/
theorem costs_leftOpen {left : Draft} {other : Nat} (hk : kind.isLeftOpen = true)
    (hl : other ≤ kind.level?.getD primaryLevel)
    (hleft : left.Costs (Shape.held kind.firstLevel free) m)
    (hs : ∀ a, Shape.ownGroups kind (a :: (allShapes before ++ allShapes after)) +
      Shape.groupsAll kind.otherLevel kind.otherLevel (allShapes before ++ allShapes after) ≤ n) :
    (Draft.node kind span (left :: before) after).Costs (Shape.held other free) (m + n) := by
  obtain ⟨a, ha, hm⟩ := hleft
  refine ⟨.node kind kind.isConstant (a :: (allShapes before ++ allShapes after)), ?_, ?_⟩
  · simp [shapes, allShapes, ha]
  · exact Shape.groups_leftOpen hk hl hm (hs a)

/-- A node with an operand in front of others. -/
theorem costs_spanning {left last : Draft} {other : Nat} (hk : kind.isLeftOpen = true)
    (hl : other ≤ kind.level?.getD primaryLevel) (hown : ∀ ss, Shape.ownGroups kind ss = 0)
    (hleft : left.Costs (Shape.held kind.firstLevel free) m)
    (hs : AllCost kind.otherLevel before n) :
    (Draft.spanning kind left last (left :: before)).Costs (Shape.held other free) (m + n) := by
  refine costs_leftOpen hk hl hleft fun a => ?_
  rw [hown, Nat.zero_add, allShapes, List.append_nil]
  exact hs

/-- A member of an object. -/
theorem costs_member {object : Draft} {calls : Bool} (hk : kind.isMember = true)
    (ho : object.Costs (Shape.chained calls free) m) (hb : AllCost commaLevel before n) :
    (Draft.node kind span (object :: before) []).Costs (Shape.chained calls free) (m + n) := by
  obtain ⟨a, ha, hm⟩ := ho
  refine ⟨.node kind kind.isConstant (a :: allShapes before), ?_, ?_⟩
  · simp [shapes, allShapes, ha]
  · have hmember : (decide (a.level < callLevel)).toNat +
        ((Shape.node kind kind.isConstant (a :: allShapes before)).chained calls free).toNat ≤
          (a.chained calls free).toNat := Shape.chained_member hk
    have hlevels : Shape.ownGroups kind (a :: allShapes before) = 0 ∧
        kind.firstLevel = callLevel ∧ kind.otherLevel = commaLevel := by
      cases kind <;> first | exact ⟨rfl, rfl, rfl⟩ | cases hk
    rw [AllCost] at hb
    rw [Shape.groups_node, Shape.groupsAll_cons, Shape.groupsAt, hlevels.1, hlevels.2.1, hlevels.2.2]
    omega

/-- A call with its arguments. -/
theorem costs_call {callee : Draft} {arguments : List Draft}
    (hc : callee.Costs (Shape.chained true free) m) (ha : ListCost arguments n) :
    (Draft.node .call span [callee] arguments).Costs (Shape.chained true free) (m + n) := by
  have hcallee : callee.Costs (Shape.held callLevel free) m :=
    hc.imp fun _ h => Shape.chained_true ▸ h
  have hnode : (Draft.node .call span [callee] arguments).Costs (Shape.held callLevel free)
      (m + n) := costs_leftOpen rfl (Nat.le_refl _) hcallee fun _ => ha
  exact hnode.imp fun _ h => Shape.chained_true ▸ h

/-- What is constructed, with its arguments. -/
theorem costs_new {callee : Draft} {arguments : List Draft}
    (hc : callee.Costs (Shape.chained false free) m) (ha : ListCost arguments n) :
    (Draft.node .new span [callee] arguments).Costs (fun _ => false) (m + n) := by
  obtain ⟨a, hs, hm⟩ := hc
  refine ⟨.node .new Kind.new.isConstant (a :: allShapes arguments), ?_, ?_⟩
  · simp [shapes, allShapes, hs]
  · have hsplit : (decide (a.level < callLevel)).toNat + a.callsThrough.toNat ≤
        (a.chained false free).toNat := Shape.chained_split
    rw [ListCost] at ha
    have hown : Shape.ownGroups .new (a :: allShapes arguments) =
        (!(allShapes arguments).isEmpty).toNat + a.callsThrough.toNat := rfl
    have hfirst : Kind.new.firstLevel = callLevel := rfl
    have hothers : Kind.new.otherLevel = assignLevel := rfl
    rw [Shape.groups_node, Shape.groupsAll_cons, Shape.groupsAt, hown, hfirst, hothers,
      Bool.toNat_false]
    omega

end Draft

/-- How many parentheses that enclose something are opened in tokens. -/
def openedIn (ts : List Token) : Nat := openings false (ts.map Token.kind)

theorem openedIn_le_cons (t : Token) (ts : List Token) : openedIn ts ≤ openedIn (t :: ts) := by
  rw [openedIn, openedIn, List.map_cons, openings]
  split
  · exact Nat.le_refl _
  · exact Nat.le_trans openings_false_le (Nat.le_add_left _ _)

theorem openedIn_le_of_suffix {ts rest : List Token} (h : rest <:+ ts) :
    openedIn rest ≤ openedIn ts := by
  obtain ⟨front, rfl⟩ := h
  induction front with
  | nil => exact Nat.le_refl _
  | cons t front ih => exact Nat.le_trans ih (openedIn_le_cons _ _)

/-- What is read from the front of tokens costs no more parentheses than are opened there. -/
def Pays {α : Type} {n : Nat} (P : α → Nat → Prop) (ts : List Token) (x : Parse α n) : Prop :=
  ∀ r, x = .ok r → ∃ m, P r.value m ∧ m + openedIn r.rest ≤ openedIn ts

namespace Pays

variable {α β : Type} {n k : Nat} {P : α → Nat → Prop} {Q : β → Nat → Prop} {ts : List Token}

/-- One part is read after the other. -/
theorem bind_ok {x : Parse α n} {f : Parsed α n → Parse β k} (hx : Pays P ts x)
    (hf : ∀ a rest h m, x = .ok ⟨a, rest, h⟩ → P a m →
      Pays (fun b j => Q b (m + j)) rest (f ⟨a, rest, h⟩)) : Pays Q ts (x >>= f) := by
  intro r hr
  cases x with
  | error => cases hr
  | ok p =>
    obtain ⟨m, hp, hm⟩ := hx p rfl
    obtain ⟨j, hq, hj⟩ := hf p.value p.rest p.shorter m rfl hp r hr
    exact ⟨m + j, hq, by omega⟩

theorem bind {x : Parse α n} {f : Parsed α n → Parse β k} (hx : Pays P ts x)
    (hf : ∀ a rest h m, P a m → Pays (fun b j => Q b (m + j)) rest (f ⟨a, rest, h⟩)) :
    Pays Q ts (x >>= f) :=
  hx.bind_ok fun a rest h m _ => hf a rest h m

/-- A part that costs nothing is read before another. -/
theorem next {x : Parse α n} {f : Parsed α n → Parse β k} (hx : Pays (fun _ _ => True) ts x)
    (hf : ∀ a rest h, Pays Q rest (f ⟨a, rest, h⟩)) : Pays Q ts (x >>= f) := by
  intro r hr
  cases x with
  | error => cases hr
  | ok p =>
    obtain ⟨m, -, hm⟩ := hx p rfl
    obtain ⟨j, hq, hj⟩ := hf p.value p.rest p.shorter r hr
    exact ⟨j, hq, by omega⟩

theorem pure {a : α} {rest : List Token} {h : rest.length < n} (ha : P a 0) (hs : rest <:+ ts) :
    Pays P ts (.ok ⟨a, rest, h⟩) := by
  intro r hr
  cases hr
  exact ⟨0, ha, by rw [Nat.zero_add]; exact openedIn_le_of_suffix hs⟩

theorem error {fault : Fault} : Pays P ts (.error fault : Parse α n) := fun _ hr => by cases hr

theorem imp {P' : α → Nat → Prop} {x : Parse α n} (h : Pays P ts x)
    (hp : ∀ a m, P a m → P' a m) : Pays P' ts x := by
  intro r hr
  obtain ⟨m, hm, hle⟩ := h r hr
  exact ⟨m, hp _ _ hm, hle⟩

/-- The part of a run of tokens behind some of them. -/
theorem of_suffix {x : Parse α n} {rest : List Token} (h : Pays P rest x) (hs : rest <:+ ts) :
    Pays P ts x := by
  intro r hr
  obtain ⟨m, hm, hle⟩ := h r hr
  exact ⟨m, hm, Nat.le_trans hle (openedIn_le_of_suffix hs)⟩

/-- A parenthesis that is not closed at once pays for one. -/
theorem opened {x : Parse α n} {span : Span} (hr : Refuses (.mark .closeParen) ts x)
    (h : Pays (fun a m => P a (m + 1)) ts x) : Pays P (⟨.mark .openParen, span⟩ :: ts) x := by
  intro r hx
  obtain ⟨m, hm, hle⟩ := h r hx
  refine ⟨m + 1, hm, ?_⟩
  have hhead : (ts.map Token.kind).head? ≠ some (.mark .closeParen) := by
    rw [List.head?_map]
    exact fun hc => hr hc r hx
  have hopen : openedIn (⟨.mark .openParen, span⟩ :: ts) = openedIn ts + 1 := by
    rw [openedIn, List.map_cons, openings_open, openings_true hhead, Bool.toNat_false, Nat.zero_add]
    rfl
  omega

/-- A given token is read before something else. -/
theorem expected {kind : TokenKind} {f : Parsed Span ts.length → Parse β k}
    (hf : ∀ span rest h, Pays Q (⟨kind, span⟩ :: rest) (f ⟨span, rest, h⟩)) :
    Pays Q ts (expect kind ts >>= f) := by
  cases ts with
  | nil => exact error
  | cons t rest =>
    obtain ⟨l, span⟩ := t
    rw [expect]
    split
    · rename_i hk
      obtain rfl : l = kind := hk
      exact hf span rest _
    · exact error

/-- An optional token is read before something else. -/
theorem eaten {kind : TokenKind} {more : List Token} {a : Unit × Span}
    {h : more.length < ts.length} {x : Parse β k} (he : eat? kind ts = some ⟨a, more, h⟩)
    (hx : ∀ span, Pays Q (⟨kind, span⟩ :: more) x) : Pays Q ts x := by
  obtain ⟨span, hts⟩ := cons_of_eat? he
  exact hts ▸ hx span

/-- What is read behind a target is read only where it is one. -/
theorem checked {use : TargetUse} {target : Draft} {x : Parse β k}
    (hx : target.kind.isTarget = true → Pays Q ts x) :
    Pays Q ts (do checkTarget use target; x) := by
  unfold checkTarget
  split
  · rename_i ht
    exact hx ht
  · exact error

end Pays

theorem expect_pays (kind : TokenKind) (ts : List Token) :
    Pays (fun _ _ => True) ts (expect kind ts) := by
  unfold expect
  split
  · split
    · exact .pure trivial (List.suffix_cons _ _)
    · exact .error
  · exact .error

theorem expectName_pays (ts : List Token) : Pays (fun _ _ => True) ts (expectName ts) := by
  unfold expectName
  split
  · exact .pure trivial (List.suffix_cons _ _)
  · exact .error

theorem propertyName_pays (ts : List Token) : Pays (fun _ _ => True) ts (propertyName ts) := by
  unfold propertyName
  split
  · exact .pure trivial (List.suffix_cons _ _)
  · exact .pure trivial (List.suffix_cons _ _)
  · exact .error

theorem entryKey_pays (ts : List Token) : Pays (fun _ _ => True) ts (entryKey ts) := by
  unfold entryKey
  split
  · exact .pure trivial (List.suffix_cons _ _)
  · exact .pure trivial (List.suffix_cons _ _)
  · exact propertyName_pays _

theorem statementEnd_pays (ts : List Token) : Pays (fun _ _ => True) ts (statementEnd ts) := by
  unfold statementEnd
  split
  · exact .pure trivial (List.suffix_cons _ _)
  · exact .pure trivial (List.suffix_refl _)
  · exact .pure trivial (List.suffix_refl _)
  · exact .error

theorem optionalName_pays (ts : List Token) : Pays (fun _ _ => True) ts (optionalName ts) := by
  unfold optionalName
  split
  · exact .pure trivial (List.suffix_cons _ _)
  · exact .pure trivial (List.suffix_refl _)

theorem parameters_pays (ts : List Token) : Pays (fun _ _ => True) ts (parameters ts) := by
  suffices h : ∀ (n : Nat) (ts : List Token), ts.length < n →
      Pays (fun _ _ => True) ts (parameters ts) from h _ ts (Nat.lt_succ_self _)
  intro n
  induction n with
  | zero => exact fun _ h => absurd h (Nat.not_lt_zero _)
  | succ n ih =>
    intro ts hlt
    unfold parameters
    split
    · exact .pure trivial (List.suffix_cons _ _)
    · rename_i more
      refine .of_suffix ((ih more ?_).next fun others rest h => .pure trivial (List.suffix_refl _))
        ((List.suffix_cons _ _).trans (List.suffix_cons _ _))
      simp only [List.length_cons] at hlt
      omega
    · rename_i more _
      exact .of_suffix ((expect_pays _ more).next fun _ rest h =>
        .pure trivial (List.suffix_refl _)) (List.suffix_cons _ _)
    · exact .error

/-- Parameters in parentheses pay for these, where there are any. -/
theorem parameters_opened (span : Span) (ts : List Token) :
    Pays (fun params m => (!params.isEmpty).toNat ≤ m) (⟨.mark .openParen, span⟩ :: ts)
      (parameters ts) := by
  by_cases hc : ts.head?.map Token.kind = some (.mark .closeParen)
  · cases ts with
    | nil => cases hc
    | cons t rest =>
      obtain ⟨k, close⟩ := t
      obtain rfl := Option.some.inj hc
      unfold parameters
      exact .pure (Nat.zero_le _) ((List.suffix_cons _ _).trans (List.suffix_cons _ _))
  · refine .opened (fun h => absurd h hc) ((parameters_pays ts).imp fun params m _ => ?_)
    exact Nat.le_trans (Bool.toNat_le _) (Nat.le_add_left _ _)

end Hoist
