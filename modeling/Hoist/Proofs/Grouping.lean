import Hoist.Proofs.Opening

namespace Hoist

/-- How tightly the first child of a node has to bind so that it needs no parentheses. -/
def Kind.firstLevel : Kind → Nat
  | .array | .key _ | .name _ => assignLevel
  | .assign | .assignOp _ | .increment _ _ => stepLevel
  | .conditional | .or_ => orLevel
  | .and_ => andLevel
  | .binary op => op.precedence
  | .unary _ => unaryLevel
  | .call | .new | .property _ | .element => callLevel
  | _ => commaLevel

/-- How tightly the other children of a node have to bind so that they need no parentheses. -/
def Kind.otherLevel : Kind → Nat
  | .array | .call | .new | .assign | .assignOp _ | .conditional => assignLevel
  | .or_ => andLevel
  | .and_ => andLevel + 1
  | .binary op => op.precedence + 1
  | .comma => commaLevel + 1
  | _ => commaLevel

/-- Whether the text of a node begins with the text of its first child. -/
def Kind.isLeftOpen : Kind → Bool
  | .comma | .assign | .assignOp _ | .conditional | .or_ | .and_ | .binary _ | .increment _ true
  | .call | .property _ | .element => true
  | _ => false

/-- Whether a node would be read as a declaration or a block at the beginning of a statement. -/
def Kind.isLeading : Kind → Bool
  | .object | .function _ _ => true
  | _ => false

/-- Whether a statement that begins with a token is no expression though an expression can begin
with it. -/
def TokenKind.isLeading (k : TokenKind) : Bool :=
  k = .mark .openBrace || k = .keyword .function

namespace Shape

/-- How tightly a shape binds. -/
def level (s : Shape) : Nat := s.kind.level?.getD primaryLevel

/-- Whether the text of an expression begins with a function or an object literal. -/
def leads : Shape → Bool
  | .node kind _ [] => kind.isLeading
  | .node kind _ (first :: _) =>
    kind.isLeading || kind.isLeftOpen && decide (kind.firstLevel ≤ first.level) && first.leads

/-- Whether there is a call on the way down through the objects of members. -/
def callsThrough (s : Shape) : Bool := s.written.callsThrough

/-- How many parentheses that enclose something a node needs besides those around its children. -/
def ownGroups (kind : Kind) (ss : List Shape) : Nat :=
  match kind with
  | .if_ | .while_ | .doWhile | .for_ | .switch => 1
  | .function _ params => (!params.isEmpty).toNat
  | .call => (!(ss.drop 1).isEmpty).toNat
  | .new => (!(ss.drop 1).isEmpty).toNat + (ss.head?.any callsThrough).toNat
  | .expression => (ss.head?.any leads).toNat
  | _ => 0

mutual

/-- How many parentheses that enclose something every text of a shape needs. -/
def groups : Shape → Nat
  | .node kind _ ss => ownGroups kind ss + groupsAll kind.firstLevel kind.otherLevel ss

/-- How many parentheses that enclose something shapes need in places that ask for levels. -/
def groupsAll : Nat → Nat → List Shape → Nat
  | _, _, [] => 0
  | first, others, s :: ss =>
    s.groups + (decide (s.level < first)).toNat + groupsAll others others ss

end

@[simp] theorem groupsAll_nil (first others : Nat) : groupsAll first others [] = 0 := by
  rw [groupsAll]

/-- How many parentheses that enclose something a shape needs in a place that asks for a level. -/
def groupsAt (level : Nat) (s : Shape) : Nat := s.groups + (decide (s.level < level)).toNat

theorem groupsAll_cons (first others : Nat) (s : Shape) (ss : List Shape) :
    groupsAll first others (s :: ss) = s.groupsAt first + groupsAll others others ss := by
  rw [groupsAll, groupsAt]

theorem groupsAll_append (level : Nat) (ss ss' : List Shape) :
    groupsAll level level (ss ++ ss') = groupsAll level level ss + groupsAll level level ss' := by
  induction ss with
  | nil => simp
  | cons s ss ih =>
    rw [List.cons_append, groupsAll_cons, groupsAll_cons, ih]
    omega

theorem groupsAll_eq_sum (level : Nat) (ss : List Shape) :
    groupsAll level level ss = (ss.map (groupsAt level)).sum := by
  induction ss with
  | nil => simp
  | cons s ss ih => rw [groupsAll_cons, ih, List.map_cons, List.sum_cons]

theorem groups_node (kind : Kind) (constant : Bool) (ss : List Shape) :
    (node kind constant ss).groups =
      ownGroups kind ss + groupsAll kind.firstLevel kind.otherLevel ss := by
  rw [groups]

theorem commaLevel_le_level (s : Shape) : commaLevel ≤ s.level := by
  unfold level
  cases s.kind <;> simp only [Kind.level?, Option.getD_some, Option.getD_none] <;> try decide
  case binary op => cases op <;> decide
  case increment d isPostfix => cases isPostfix <;> decide

@[simp] theorem level_lt_commaLevel (s : Shape) : decide (s.level < commaLevel) = false :=
  decide_eq_false (Nat.not_lt.mpr s.commaLevel_le_level)

@[simp] theorem groupsAt_commaLevel (s : Shape) : s.groupsAt commaLevel = s.groups := by
  rw [groupsAt, level_lt_commaLevel]
  rfl

/-- A node that asks for no level needs what it needs itself and what its children need. -/
theorem groups_loose {kind : Kind} (hf : kind.firstLevel = commaLevel)
    (ho : kind.otherLevel = commaLevel) (constant : Bool) (ss : List Shape) :
    (node kind constant ss).groups = ownGroups kind ss + (ss.map groups).sum := by
  rw [groups_node, hf, ho, groupsAll_eq_sum, List.map_congr_left fun s _ => groupsAt_commaLevel s]

/-- Whether an expression has to be put in parentheses where a level is asked for, or where a text
must not begin with a function or an object literal. -/
def held (level : Nat) (free : Bool) (s : Shape) : Bool :=
  decide (s.level < level) || !free && s.leads

/-- Whether an expression has to be put in parentheses in front of a member, in front of arguments
where there are any, or as what is constructed. -/
def chained (calls free : Bool) (s : Shape) : Bool :=
  s.held callLevel free || !calls && s.callsThrough

variable {kind : Kind} {constant free : Bool} {a s : Shape} {ss : List Shape} {level : Nat}

theorem held_mono {other : Nat} (h : level ≤ other) :
    s.held level free = true → s.held other free = true := by
  simp only [held, Bool.or_eq_true, decide_eq_true_eq]
  exact Or.imp_left fun hs => Nat.lt_of_lt_of_le hs h

theorem held_of_level (h : decide (s.level < level) = true) : s.held level free = true := by
  rw [held, h, Bool.true_or]

theorem chained_true : s.chained true free = s.held callLevel free := by
  simp [chained]

theorem chained_of_true {calls : Bool} (h : s.chained true free = true) :
    s.chained calls free = true := by
  rw [chained_true] at h
  rw [chained, h, Bool.true_or]

theorem leads_closed (hk : s.kind.isLeftOpen = false) : s.leads = s.kind.isLeading := by
  obtain ⟨kind, constant, ss⟩ := s
  have hopen : kind.isLeftOpen = false := hk
  cases ss <;> simp [leads, hopen]

theorem leads_leftOpen (hk : kind.isLeftOpen = true) :
    (node kind constant (a :: ss)).leads = (decide (kind.firstLevel ≤ a.level) && a.leads) := by
  have hleading : kind.isLeading = false := by
    unfold Kind.isLeading
    split <;> first | rfl | cases hk
  rw [leads, hk, hleading, Bool.false_or, Bool.true_and]

/-- A node that does not begin with its first child is put in parentheses only for its level, or
because it is a function or an object literal. -/
theorem held_closed (hk : s.kind.isLeftOpen = false) (hl : level ≤ s.level)
    (hf : s.kind.isLeading = true → free = true) : s.held level free = false := by
  rw [held, decide_eq_false (Nat.not_lt.mpr hl), leads_closed hk, Bool.false_or]
  cases hleading : s.kind.isLeading with
  | false => exact Bool.and_false _
  | true => rw [hf hleading]; rfl

/-- A node that begins with its first child is put in parentheses only where that child is not. -/
theorem held_leftOpen (hk : kind.isLeftOpen = true) (hl : level ≤ kind.level?.getD primaryLevel) :
    (decide (a.level < kind.firstLevel)).toNat +
      ((node kind constant (a :: ss)).held level free).toNat ≤
        (a.held kind.firstLevel free).toNat := by
  have hlevel : decide ((node kind constant (a :: ss)).level < level) = false :=
    decide_eq_false (Nat.not_lt.mpr hl)
  rw [held, held, hlevel, leads_leftOpen hk, Bool.false_or]
  by_cases hfirst : a.level < kind.firstLevel
  · rw [decide_eq_true hfirst, decide_eq_false (Nat.not_le.mpr hfirst)]
    simp
  · rw [decide_eq_false hfirst, decide_eq_true (Nat.not_lt.mp hfirst)]
    simp

/-- What a node that begins with its first child costs, when its children have been paid for. -/
theorem groups_leftOpen {m n : Nat} (hk : kind.isLeftOpen = true)
    (hl : level ≤ kind.level?.getD primaryLevel)
    (ha : a.groups + (a.held kind.firstLevel free).toNat ≤ m)
    (hs : ownGroups kind (a :: ss) + groupsAll kind.otherLevel kind.otherLevel ss ≤ n) :
    (node kind constant (a :: ss)).groups +
      ((node kind constant (a :: ss)).held level free).toNat ≤ m + n := by
  have hheld : (decide (a.level < kind.firstLevel)).toNat +
      ((node kind constant (a :: ss)).held level free).toNat ≤
        (a.held kind.firstLevel free).toNat := held_leftOpen hk hl
  rw [groups_node, groupsAll_cons, groupsAt]
  omega

@[simp] theorem callsThrough_property {x : String} :
    (node (.property x) constant (a :: ss)).callsThrough = a.callsThrough := by
  rw [callsThrough, callsThrough, written_node]
  rfl

@[simp] theorem callsThrough_element :
    (node .element constant (a :: ss)).callsThrough = a.callsThrough := by
  rw [callsThrough, callsThrough, written_node]
  rfl

/-- What has a call in it that way binds as tightly as a call. -/
theorem level_of_callsThrough (h : s.callsThrough = true) : callLevel ≤ s.level := by
  obtain ⟨kind, constant, ss⟩ := s
  rw [callsThrough, written_node] at h
  cases kind <;> first | exact Nat.le_refl _ | cases h

theorem callsThrough_of_level (h : s.level < callLevel) : s.callsThrough = false := by
  cases hcalls : s.callsThrough with
  | false => rfl
  | true => exact absurd h (Nat.not_lt.mpr (level_of_callsThrough hcalls))

theorem callsThrough_closed (hk : s.kind.isLeftOpen = false) : s.callsThrough = false := by
  obtain ⟨kind, constant, ss⟩ := s
  rw [callsThrough, written_node]
  cases kind <;> first | rfl | cases hk

theorem chained_closed {calls : Bool} (hk : s.kind.isLeftOpen = false) (hl : callLevel ≤ s.level)
    (hf : s.kind.isLeading = true → free = true) : s.chained calls free = false := by
  rw [chained, held_closed hk hl hf, callsThrough_closed hk, Bool.and_false, Bool.or_false]

/-- What is put in parentheses for its level has no call in it. -/
theorem chained_split : (decide (a.level < callLevel)).toNat + a.callsThrough.toNat ≤
    (a.chained false free).toNat := by
  by_cases hlevel : a.level < callLevel
  · rw [chained, held, callsThrough_of_level hlevel, decide_eq_true hlevel]
    simp
  · rw [chained, held, decide_eq_false hlevel]
    cases a.callsThrough <;> simp

/-- A member of an object is put in parentheses only where the object is not. -/
theorem chained_member {calls : Bool} (hk : kind.isMember = true) :
    (decide (a.level < callLevel)).toNat +
      ((node kind constant (a :: ss)).chained calls free).toNat ≤ (a.chained calls free).toNat := by
  have hopen : kind.isLeftOpen = true ∧ kind.level?.getD primaryLevel = callLevel ∧
      kind.firstLevel = callLevel ∧
        (node kind constant (a :: ss)).callsThrough = a.callsThrough := by
    cases kind <;> first
      | exact ⟨rfl, rfl, rfl, callsThrough_property⟩
      | exact ⟨rfl, rfl, rfl, callsThrough_element⟩
      | cases hk
  obtain ⟨hleft, hlevel, hfirst, hcalls⟩ := hopen
  have hheld : (decide (a.level < kind.firstLevel)).toNat +
      ((node kind constant (a :: ss)).held callLevel free).toNat ≤
        (a.held kind.firstLevel free).toNat := held_leftOpen hleft (Nat.le_of_eq hlevel.symm)
  rw [hfirst] at hheld
  rw [chained, chained, hcalls]
  by_cases ha : a.level < callLevel
  · rw [callsThrough_of_level ha, Bool.and_false, Bool.or_false, Bool.or_false]
    exact hheld
  · rw [decide_eq_false ha, Bool.toNat_false, Nat.zero_add] at hheld ⊢
    revert hheld
    cases (node kind constant (a :: ss)).held callLevel free <;> cases a.held callLevel free <;>
      cases (!calls && a.callsThrough) <;> simp

end Shape

end Hoist
