import Hoist.Proofs.CallOrder
import Hoist.Proofs.Reworking

namespace Hoist

theorem Kind.isChoice_of_conditionalOp {k : Kind} {op : ConditionalOp}
    (h : k.conditionalOp? = some op) : k.isChoice = true := by
  cases k <;> first | rfl | cases h

theorem Kind.binds_of_conditionalOp {k : Kind} {op : ConditionalOp} (h : k.conditionalOp? = some op)
    (binary : BinaryOp) : k.binds (.binary binary) = true := by
  cases k <;> first | rfl | cases h

/-- Whether only the same node becomes one of this kind. -/
def Kind.stays : Kind → Bool
  | .script | .block | .conditional | .and_ | .or_ | .call | .assign | .if_ | .name _ => false
  | _ => true

/-- Whether a node of this kind may take the place of another one. -/
def Kind.replaces : Kind → Bool
  | .call | .assign | .if_ | .name _ => true
  | _ => false

theorem Kind.stays_of_isMember {k : Kind} (h : k.isMember = true) : k.stays = true := by
  obtain ⟨x, rfl⟩ | rfl := Kind.property_or_element h <;> rfl

theorem Kind.apart_of_stays {k : Kind} (h : k.stays = true) :
    k.replaces = false ∧ k.isStatementList = false ∧ k.isChoice = false := by
  cases k <;> first | exact ⟨rfl, rfl, rfl⟩ | cases h

theorem Kind.apart_of_isChoice {k : Kind} (h : k.isChoice = true) :
    k.replaces = false ∧ k.isStatementList = false := by
  cases k <;> first | exact ⟨rfl, rfl⟩ | cases h

theorem Kind.apart_of_isStatementList {k : Kind} (h : k.isStatementList = true) :
    k.replaces = false ∧ k.isChoice = false := by
  cases k <;> first | exact ⟨rfl, rfl⟩ | cases h

namespace Branch

variable {K : Option (List String)} {L known : List String}
  {ds es cs cs' operands rest rest' : List Branch}
  {a b c c' d d' v v' first first' : Branch} {tag : Tag} {name : String}
  {op : ConditionalOp} {size : Nat} {result : Option String} {span : Span}

/-- A branch that is chosen by a condition is reworked with its parts. -/
theorem Reworked.of_children (h : AllReworked K L ds c.children c'.children) (ht : c'.tag = c.tag)
    (hk : c.kind = .if_) : Reworked K L ds c c' := by
  obtain ⟨tag, cs⟩ := c
  obtain ⟨tag', cs'⟩ := c'
  obtain rfl : tag' = tag := ht
  rw [kind_node] at hk
  refine .node tag' (by rw [hk]; rfl) (fun hc => ?_) (fun hc => ?_) h ?_
  · rw [hk] at hc
    cases hc
  · rw [hk] at hc
    cases hc
  exact (allReworked_iff.mp h).imp fun _ _ _ hb => by rw [hk] at hb; cases hb

/-- A name that is known to be assigned once stays. -/
theorem Reworked.eq_of_known (h : Reworked (some known) L ds (.node tag []) c')
    (hk : tag.kind = .name name) (hname : name ∈ known) : c' = .node tag [] := by
  cases h with
  | node _ _ _ _ children =>
    cases children
    rfl
  | list _ list =>
    rw [hk] at list
    cases list
  | taken _ _ _ _ alterable =>
    have halterable := alterable known rfl
    simp [isAlterable, tags, Tag.isAlterable, hk, hname] at halterable
  | decided _ _ _ kind =>
    rw [hk] at kind
    cases kind

/-- The children of a node that stays are reworked themselves. -/
theorem Reworked.children (h : Reworked K L ds c c') (hs : c.SameNode c')
    (hlist : c.kind.isStatementList = false) (hchoice : c.kind.isChoice = false)
    (hcall : c.kind ≠ .call) : AllReworked K L ds c.children c'.children ∧
      List.Forall₂ (fun a a' => c.kind.binds a.kind = true → a.SameNode a') c.children
        c'.children := by
  cases h with
  | node _ _ _ _ children bound => exact ⟨children, bound⟩
  | list _ list =>
    rw [kind_node, list] at hlist
    cases hlist
  | choice _ choice =>
    rw [kind_node, choice] at hchoice
    cases hchoice
  | intact _ _ call => exact absurd call hcall
  | held _ _ call => exact absurd call hcall
  | taken _ _ _ _ _ _ result =>
    subst result
    have hnone : c.children = [] := List.eq_nil_of_length_eq_zero hs.length.symm
    rw [hnone]
    exact ⟨.nil, .nil⟩
  | decided _ _ _ kind =>
    rw [kind_node, Kind.isChoice_of_conditionalOp kind] at hchoice
    cases hchoice
  | chosen _ _ statement _ length =>
    have hkind : (choosing _ _ _ _ _).1.kind = _ := congrArg Tag.kind hs.tag
    rw [kind_choosing _ _ _ length, tag_node, statement] at hkind
    cases hkind
  | compound _ _ _ _ _ kind _ _ _ _ _ result =>
    subst result
    have hkind : Kind.assign = _ := congrArg Tag.kind hs.tag
    rw [tag_node, kind] at hkind
    cases hkind
  | method _ _ _ _ _ _ _ kind => exact absurd kind hcall

/-- What a statement declares a name with is reworked where the statement stays. -/
theorem Declares.reworked {vs : List Branch} (hd : d.Declares name vs)
    (h : Reworked K L ds d d') (hs : d.SameNode d') : ∃ vs', d'.Declares name vs' ∧
      AllReworked K L ds vs vs' ∧
        List.Forall₂ (fun a a' => a.kind.isMember = true → a.SameNode a') vs vs' := by
  obtain ⟨tag, own, rfl, hvar, hname⟩ := hd
  obtain ⟨htag, hbound⟩ := h.children hs (by simp [hvar, Kind.isStatementList])
    (by simp [hvar, Kind.isChoice]) (by simp [hvar])
  obtain ⟨tag', cs⟩ := d'
  obtain rfl : tag' = tag := hs.tag
  cases htag with
  | @cons _ _ cs' _ own' head tail =>
    cases tail
    obtain ⟨hsame, -⟩ := List.forall₂_cons.mp hbound
    have hown := hsame (by rw [kind_node, kind_node, hvar, hname]; rfl)
    obtain ⟨hvalue, hmember⟩ := head.children hown (by simp [hname, Kind.isStatementList])
      (by simp [hname, Kind.isChoice]) (by simp [hname])
    obtain ⟨own'', vs'⟩ := own'
    obtain rfl : own'' = own := hown.tag
    refine ⟨vs', ⟨_, _, rfl, hvar, hname⟩, hvalue, hmember.imp fun a a' ha hm => ha ?_⟩
    rw [kind_node, hname]
    exact hm

theorem Declares.length_ids {vs : List Branch} (hd : d.Declares name vs) :
    d.ids.length = nodeCount vs + 2 := by
  obtain ⟨tag, own, rfl, -, -⟩ := hd
  rw [Branch.length_ids, nodeCount_cons, Branch.length_ids, nodeCount_nil]

/-- What becomes a node that takes no other's place is the same node: its children are reworked each
for itself, or are statements, or are the operands of a conditional. -/
theorem Reworked.kept (h : Reworked K L ds c (.node tag cs)) (hk : tag.kind.replaces = false) :
    ∃ bs, c = .node tag bs ∧
      (tag.kind.isStatementList = false ∧ (tag.kind.isChoice = true → bs = []) ∧
          AllReworked K L ds bs cs ∧
          List.Forall₂ (fun b c => tag.kind.binds b.kind = true → b.SameNode c) bs cs ∨
        tag.kind.isStatementList = true ∧ ListReworked K L bs cs ∨
        tag.kind.isChoice = true ∧ ∃ first rest first' rest', bs = first :: rest ∧
          cs = first' :: rest' ∧ Reworked K L ds first first' ∧
          (tag.kind.binds first.kind = true → first.SameNode first') ∧
          AllReworked K L [] rest rest') := by
  have hnot : ∀ k, tag.kind = k → k.replaces = false := fun k he => he ▸ hk
  cases h with
  | node _ list choice _ children bound => exact ⟨_, rfl, .inl ⟨list, choice, children, bound⟩⟩
  | list _ list statements => exact ⟨_, rfl, .inr (.inl ⟨list, statements⟩)⟩
  | choice _ choice head bound tail =>
    exact ⟨_, rfl, .inr (.inr ⟨choice, _, _, _, _, rfl, rfl, head, bound, tail⟩)⟩
  | intact _ _ call | held _ _ call => cases hnot _ call
  | taken _ _ _ _ _ _ result | decided _ _ _ _ _ _ _ _ result
  | compound _ _ _ _ _ _ _ _ _ _ _ result =>
    obtain ⟨rfl, -⟩ := node.inj result
    cases hk
  | method _ _ _ _ _ _ _ _ _ _ _ _ _ _ _ _ _ _ _ result =>
    obtain ⟨rfl, -⟩ := node.inj result
    cases hk
  | chosen _ _ _ _ length => cases hnot _ (kind_choosing _ _ _ length)

/-- What becomes a node of most kinds is the same node. -/
theorem Reworked.of_stays (h : Reworked K L ds c (.node tag cs)) (hk : tag.kind.stays = true) :
    ∃ bs, c = .node tag bs ∧ AllReworked K L ds bs cs ∧
      List.Forall₂ (fun b c => tag.kind.binds b.kind = true → b.SameNode c) bs cs := by
  obtain ⟨hreplaces, hlist, hchoice⟩ := Kind.apart_of_stays hk
  obtain ⟨bs, rfl, ⟨-, -, children, bound⟩ | ⟨list, -⟩ | ⟨choice, -⟩⟩ := h.kept hreplaces
  · exact ⟨bs, rfl, children, bound⟩
  · rw [hlist] at list
    cases list
  · rw [hchoice] at choice
    cases choice

/-- Only a member becomes a member. -/
theorem Reworked.sameNode_of_member (h : Reworked K L ds c c') (hm : c'.kind.isMember = true) :
    c.SameNode c' := by
  obtain ⟨tag, cs⟩ := c'
  obtain ⟨bs, rfl, children, -⟩ := h.of_stays (Kind.stays_of_isMember hm)
  exact ⟨rfl, children.length⟩

/-- Only a conditional becomes a conditional. -/
theorem Reworked.of_choice (h : Reworked K L ds c (.node tag cs)) (hk : tag.kind.isChoice = true)
    (hne : cs ≠ []) : ∃ first rest first' rest', c = .node tag (first :: rest) ∧
      cs = first' :: rest' ∧ Reworked K L ds first first' ∧
      (tag.kind.binds first.kind = true → first.SameNode first') ∧
      AllReworked K L [] rest rest' := by
  obtain ⟨hreplaces, hlist⟩ := Kind.apart_of_isChoice hk
  obtain ⟨bs, rfl, ⟨-, choice, children, -⟩ | ⟨list, -⟩ | ⟨-, first, rest, first', rest', rfl, rfl,
    head, bound, tail⟩⟩ := h.kept hreplaces
  · rw [choice hk] at children
    cases children
    exact absurd rfl hne
  · rw [hlist] at list
    cases list
  · exact ⟨first, rest, first', rest', rfl, rfl, head, bound, tail⟩

/-- Without declarations an operation stays. -/
theorem Reworked.sameNode_of_nil (h : Reworked K L [] c c') {binary : BinaryOp}
    (hk : c.kind = .binary binary) : c.SameNode c' := by
  cases h with
  | node _ _ _ _ children => exact ⟨rfl, children.length⟩
  | list _ list =>
    rw [kind_node] at hk
    rw [hk] at list
    cases list
  | choice _ _ _ _ tail => exact ⟨rfl, by simp [tail.length]⟩
  | intact _ _ _ _ _ arguments | held _ _ _ _ _ arguments =>
    exact ⟨rfl, by simp [arguments.length]⟩
  | taken _ _ split | decided _ _ _ _ _ split | method _ _ _ _ _ _ _ _ _ _ split =>
    simp at split
  | chosen _ _ statement =>
    rw [kind_node, statement] at hk
    cases hk
  | compound _ _ _ _ _ _ declared => cases declared

section Choosing

/-- A block of one statement is reworked with it. -/
theorem Reworked.block (h : Reworked K L [] v v') (hv : v.kind ≠ .var) (id : NodeId) (span : Span) :
    Reworked K L ds (.made id .block span [v]) (.made id .block span [v']) :=
  .list _ rfl (.next h (fun hk => absurd hk hv) .nil)

variable (hK : ∀ k ∈ K, k ⊆ L)

include hK

/-- A value that is assigned or not is reworked with it. -/
theorem Reworked.resulting (h : Reworked K L ds v v')
    (hb : ∀ binary, v.kind = .binary binary → v.SameNode v') (size : Nat) (result : Option String)
    (span : Span) :
    Reworked K L ds (v.resulting size result span).1 (v'.resulting size result span).1 ∧
      (v'.resulting size result span).2 = (v.resulting size result span).2 := by
  cases result with
  | none => exact ⟨h, rfl⟩
  | some name =>
    refine ⟨.node _ rfl (fun hk => by cases hk) (fun hk => by cases hk)
      (.cons (.refl hK _ _) (.single h))
      (.cons (fun _ => .refl _) (.cons (fun hk => ?_) .nil)), rfl⟩
    cases hv : v.kind with
    | binary binary => exact hb binary hv
    | _ => rw [hv] at hk; cases hk

theorem Reworked.resultStatement (h : Reworked K L [] v v') (size : Nat) (result : Option String)
    (span : Span) :
    Reworked K L [] (v.resultStatement size result span).1 (v'.resultStatement size result span).1 ∧
      (v'.resultStatement size result span).2 = (v.resultStatement size result span).2 := by
  obtain ⟨hvalue, hsize⟩ := h.resulting hK (fun _ hv => h.sameNode_of_nil hv) size result span
  rw [Branch.resultStatement, Branch.resultStatement, hsize]
  exact ⟨.node _ rfl (fun hk => by cases hk) (fun hk => by cases hk) (.single hvalue)
    (.cons (fun hk => by cases hk) .nil), rfl⟩

/-- The statement of a conditional is reworked when its operands are. -/
theorem Reworked.choosing (hl : (first :: rest).length = op.operands)
    (head : Reworked K L ds first first')
    (bound : ∀ binary, first.kind = .binary binary → first.SameNode first')
    (tail : AllReworked K L [] rest rest') (size : Nat) (result : Option String) (span : Span) :
    (choosing size result span op (first' :: rest')).1.tag =
        (choosing size result span op (first :: rest)).1.tag ∧
      AllReworked K L ds (choosing size result span op (first :: rest)).1.children
        (choosing size result span op (first' :: rest')).1.children := by
  cases op with
  | choice =>
    obtain ⟨a, b, rfl⟩ := List.length_eq_two.mp (Nat.succ.inj hl)
    obtain ⟨_, _, rfl, one, tail⟩ := tail.of_cons
    obtain ⟨_, rfl, two⟩ := tail.of_single
    obtain ⟨hone, hnext⟩ := one.resultStatement hK (size + 2) result span
    obtain ⟨htwo, hlast⟩ := two.resultStatement hK (a.resultStatement (size + 2) result span).2
      result span
    simp only [Branch.choosing, hnext, hlast]
    exact ⟨rfl, .cons head (.cons (hone.block (fun hk => by cases hk) _ _)
      (.single (htwo.block (fun hk => by cases hk) _ _)))⟩
  | and_ =>
    obtain ⟨a, rfl⟩ := List.length_eq_one_iff.mp (Nat.succ.inj hl)
    obtain ⟨_, rfl, one⟩ := tail.of_single
    obtain ⟨hone, hnext⟩ := one.resultStatement hK (size + 2) result span
    obtain ⟨hleft, hlast⟩ := head.resulting hK bound
      (a.resultStatement (size + 2) result span).2 result span
    simp only [Branch.choosing, hnext, hlast]
    exact ⟨rfl, .cons hleft (.single (hone.block (fun hk => by cases hk) _ _))⟩
  | or_ =>
    obtain ⟨a, rfl⟩ := List.length_eq_one_iff.mp (Nat.succ.inj hl)
    obtain ⟨_, rfl, one⟩ := tail.of_single
    obtain ⟨hone, hnext⟩ := one.resultStatement hK (size + 2) result span
    obtain ⟨hleft, hlast⟩ := head.resulting hK bound
      (a.resultStatement (size + 2) result span).2 result span
    simp only [Branch.choosing, hnext, hlast]
    exact ⟨rfl, .cons hleft (.cons (.refl hK _ _)
      (.single (hone.block (fun hk => by cases hk) _ _)))⟩

end Choosing

/-- Only a list of statements becomes one. -/
theorem Reworked.of_list (h : Reworked K L ds c (.node tag cs))
    (hk : tag.kind.isStatementList = true) : ∃ bs, c = .node tag bs ∧ ListReworked K L bs cs := by
  obtain ⟨hreplaces, hchoice⟩ := Kind.apart_of_isStatementList hk
  obtain ⟨bs, rfl, ⟨list, -⟩ | ⟨-, statements⟩ | ⟨choice, -⟩⟩ := h.kept hreplaces
  · rw [hk] at list
    cases list
  · exact ⟨bs, rfl, statements⟩
  · rw [hchoice] at choice
    cases choice

/-- What becomes a conditional makes the same statement, whose parts are reworked. -/
theorem Reworked.choosing_of_choice (h : Reworked none L ds c (.node tag operands))
    (hk : tag.kind.conditionalOp? = some op) (hl : operands.length = op.operands) (size : Nat)
    (result : Option String) (span : Span) :
    ∃ before, c = .node tag before ∧ before.length = op.operands ∧
      (Branch.choosing size result span op operands).1.tag =
        (Branch.choosing size result span op before).1.tag ∧
      AllReworked none L ds (Branch.choosing size result span op before).1.children
        (Branch.choosing size result span op operands).1.children := by
  have hne : operands ≠ [] := by
    rintro rfl
    cases op <;> cases hl
  obtain ⟨first, rest, first', rest', rfl, rfl, head, bound, tail⟩ :=
    h.of_choice (Kind.isChoice_of_conditionalOp hk) hne
  have hbefore : (first :: rest).length = op.operands := by
    rw [← hl, List.length_cons, List.length_cons, tail.length]
  obtain ⟨htag, hchildren⟩ := Reworked.choosing (K := none) (by simp) hbefore head
    (fun binary hb => bound (by rw [hb]; exact Kind.binds_of_conditionalOp hk binary)) tail size
    result span
  exact ⟨_, rfl, hbefore, htag, hchildren⟩

/-- What branches have become can be reworked further, where no more than a number of nodes are
left. -/
def Chains (known M : List String) (n : Nat) : Prop :=
  ∀ {ds ds' es : List Branch} {a b c : Branch}, nodeCount ds' + nodeCount es + c.ids.length ≤ n →
    ListReworked (some known) M ds ds' → Reworked none known ds a b →
      Reworked (some known) M es b c → Reworked none M (ds' ++ es) a c

section Chains

variable {M : List String} {n : Nat} {ds' as bs : List Branch}

theorem AllReworked.chain (ih : Chains known M n)
    (hn : nodeCount ds' + nodeCount es + nodeCount cs ≤ n)
    (hds : ListReworked (some known) M ds ds') (h : AllReworked none known ds as bs)
    (h' : AllReworked (some known) M es bs cs) :
    AllReworked none M (ds' ++ es) as cs := by
  induction as generalizing bs cs with
  | nil =>
    cases h
    cases h'
    exact .nil
  | cons a as ihs =>
    cases h with
    | cons head tail =>
      cases h' with
      | cons head' tail' =>
        rw [nodeCount_cons] at hn
        exact .cons (ih (by omega) hds head head') (ihs (by omega) tail tail')

theorem ListReworked.chain (ih : Chains known M n) (hn : nodeCount cs ≤ n)
    (h : ListReworked none known as bs) (h' : ListReworked (some known) M bs cs) :
    ListReworked none M as cs := by
  induction as generalizing bs cs with
  | nil =>
    cases h
    cases h'
    exact .nil
  | cons a as ihs =>
    cases h with
    | cons head bound tail =>
      obtain ⟨ds', es, c, cs, rfl, hds, hc, hbound, hrest⟩ := h'.split
      simp only [nodeCount_append, nodeCount_cons] at hn
      refine .cons (ih (by omega) hds head hc) (fun hk => ?_) (ihs (by omega) tail hrest)
      exact (bound hk).trans (hbound ((congrArg Tag.kind (bound hk).tag).trans hk))

/-- Where nodes stay from one time to the next and then again, they stay. -/
theorem bound_trans {k : Kind}
    (h : List.Forall₂ (fun a b => k.binds a.kind = true → SameNode a b) as bs)
    (h' : List.Forall₂ (fun b c => k.binds b.kind = true → SameNode b c) bs cs) :
    List.Forall₂ (fun a c => k.binds a.kind = true → SameNode a c) as cs := by
  induction h generalizing cs with
  | nil =>
    cases h'
    exact .nil
  | cons hab _ ih =>
    cases h' with
    | cons hbc tail =>
      refine .cons (fun hk => (hab hk).trans (hbc ?_)) (ih tail)
      rw [show Branch.kind _ = _ from congrArg Tag.kind (hab hk).tag]
      exact hk

/-- A declaration stays among what becomes of declarations. -/
theorem ListReworked.declares {earlier later vs : List Branch}
    (h : ListReworked K L (earlier ++ d :: later) ds') (hd : d.Declares name vs) :
    ∃ before es d' behind vs', ds' = before ++ es ++ d' :: behind ∧
      ListReworked K L earlier before ∧ ListReworked K L [d] (es ++ [d']) ∧
      ListReworked K L later behind ∧ d'.Declares name vs' ∧ AllReworked K L es vs vs' ∧
      List.Forall₂ (fun v v' => v.kind.isMember = true → SameNode v v') vs vs' := by
  obtain ⟨before, es, d', behind, rfl, hbefore, hd', hbound, hbehind⟩ := h.split
  have hvar : d.kind = .var := by
    obtain ⟨tag, own, rfl, hvar, -⟩ := hd
    exact hvar
  obtain ⟨vs', hdeclares, hvalue, hmember⟩ := hd.reworked hd' (hbound hvar)
  exact ⟨before, es, d', behind, vs', rfl, hbefore, .cons hd' hbound .nil, hbehind, hdeclares,
    hvalue, hmember⟩

/-- A node that stays after all is reworked as before. -/
theorem Reworked.chain_node (hM : known ⊆ M) (ih : Chains known M n)
    (hn : nodeCount ds' + nodeCount es + nodeCount cs ≤ n)
    (hds : ListReworked (some known) M ds ds') (h : Reworked none known ds a (.node tag bs))
    (hlist : tag.kind.isStatementList = false) (hchoice : tag.kind.isChoice = true → bs = [])
    (hmethod : tag.kind = .call → startsWithMember bs = false)
    (children : AllReworked (some known) M es bs cs)
    (bound : List.Forall₂ (fun b c => tag.kind.binds b.kind = true → b.SameNode c) bs cs) :
    Reworked none M (ds' ++ es) a (.node tag cs) := by
  cases h with
  | node _ _ choice method before kept =>
    exact .node tag hlist choice method (before.chain ih hn hds children) (bound_trans kept bound)
  | list _ list =>
    rw [hlist] at list
    cases list
  | choice _ choice => cases hchoice choice
  | intact _ part call member | held _ part call member =>
    have hfirst := hmethod call
    rw [startsWithMember, List.head?_cons, Option.any_some, kind_node, member] at hfirst
    cases hfirst
  | taken id span split declares alterable value result =>
    subst split
    obtain ⟨rfl, rfl⟩ := node.inj result
    cases children
    obtain ⟨before, gs, d', behind, vs', rfl, hbefore, -, -, hd', hvalue, -⟩ :=
      hds.declares declares
    cases hvalue with
    | cons head tail =>
      cases tail
      simp only [nodeCount_append, nodeCount_cons, hd'.length_ids, nodeCount_nil] at hn
      have hsplit : before ++ gs ++ d' :: behind ++ es = before ++ gs ++ d' :: (behind ++ es) := by
        simp
      exact .taken id span hsplit hd' (by simp) (ih (by omega) hbefore value head) rfl
  | decided tag id span kind length split declares value result =>
    subst split
    obtain ⟨rfl, rfl⟩ := node.inj result
    cases children
    obtain ⟨before, gs, d', rest, vs', rfl, hbefore, hd, hrest, hd', hnone, -⟩ :=
      hds.declares declares
    cases hnone
    obtain ⟨between, hs, statement, later, rfl, hbetween, hstatement, -, -⟩ := hrest.split
    simp only [nodeCount_append, nodeCount_cons, nodeCount_nil] at hn
    have hsize : nodeCount (before ++ (gs ++ [d'] ++ between)) + nodeCount hs +
        statement.ids.length ≤ n := by
      simp only [nodeCount_append, nodeCount_cons, nodeCount_nil]
      omega
    have hvalue := ih hsize (hbefore.append (hd.append hbetween)) value hstatement
    have hstands : before ++ (gs ++ [d'] ++ between) ++ hs =
        before ++ gs ++ d' :: (between ++ hs) := by simp
    have hsplit : before ++ gs ++ d' :: (between ++ hs ++ statement :: later) ++ es =
        before ++ gs ++ d' :: (between ++ hs ++ statement :: (later ++ es)) := by simp
    exact .decided tag id span kind length hsplit hd' (hstands ▸ hvalue) rfl
  | chosen root tag statement kind length before =>
    exact .chosen root tag statement kind length (before.chain ih hn hds children)
  | @compound _ _ w w' v v' _ d read name tag i j k span kind declared declares hname target value
      result =>
    obtain ⟨rfl, rfl⟩ := node.inj result
    obtain ⟨d', hmem, read', hd'⟩ : ∃ d' ∈ ds', ∃ read', d'.Declares name [read'] := by
      obtain ⟨earlier, later, rfl⟩ := List.append_of_mem declared
      obtain ⟨before, gs, d', behind, vs', rfl, -, -, -, hd', hread, -⟩ := hds.declares declares
      cases hread with
      | cons _ hnone =>
        cases hnone
        exact ⟨d', by simp, _, hd'⟩
    obtain ⟨w'', tail, rfl, hw, htail⟩ := children.of_cons
    obtain ⟨⟨sum, operands⟩, rfl, hsum⟩ := htail.of_single
    have hsame := (List.forall₂_cons.mp (List.forall₂_cons.mp bound).2).1
    obtain ⟨hoperands, -⟩ := hsum.children (hsame rfl) rfl rfl (fun hk => by cases hk)
    obtain rfl : sum = _ := (hsame rfl).tag
    obtain ⟨r, tail, rfl, hr, htail⟩ := hoperands.of_cons
    obtain ⟨v'', rfl, hv⟩ := htail.of_single
    obtain rfl : r = .madeName k name span := hr.eq_of_known rfl hname
    simp only [nodeCount_cons, nodeCount_nil, Branch.length_ids] at hn
    exact .compound tag i j k span kind (List.mem_append_left _ hmem) hd' (hM hname)
      (ih (by omega) hds target hw) (ih (by omega) hds value hv) rfl
  | method _ _ _ _ _ _ _ _ _ _ _ _ _ _ _ _ _ _ _ result =>
    obtain ⟨rfl, rfl⟩ := node.inj result
    have hfirst := hmethod rfl
    cases hfirst

/-- Only arguments whose callee is a member start with one. -/
theorem AllReworked.startsWithMember (h : AllReworked K L ds as (c :: cs))
    (hc : c.kind.isMember = true) : Hoist.startsWithMember as = true := by
  cases h with
  | cons head _ =>
    rw [Hoist.startsWithMember, List.head?_cons, Option.any_some]
    rw [show c.kind = _ from congrArg Tag.kind (head.sameNode_of_member hc).tag] at hc
    exact hc

/-- The declarations of an object and of its member stay among what becomes of declarations. -/
theorem ListReworked.declares_method {earlier between later keys : List Branch} {e object : Branch}
    {part reference : Tag} {function receiver : String}
    (h : ListReworked (some known) M (earlier ++ d :: (between ++ e :: later)) ds')
    (holds : d.Declares receiver [object])
    (calls : e.Declares function [.node part (.node reference [] :: keys)])
    (member : part.kind.isMember = true) (refers : reference.kind = .name receiver)
    (held : receiver ∈ known) : ∃ before gs d' middle hs e' behind object' keys',
      ds' = before ++ gs ++ d' :: (middle ++ hs ++ e' :: behind) ∧
      d'.Declares receiver [object'] ∧
      e'.Declares function [.node part (.node reference [] :: keys')] ∧
      ListReworked (some known) M earlier before ∧ Reworked (some known) M gs object object' ∧
      ListReworked (some known) M (earlier ++ d :: between) (before ++ (gs ++ [d'] ++ middle)) ∧
      AllReworked (some known) M hs keys keys' ∧ ListReworked (some known) M later behind := by
  obtain ⟨before, gs, d', rest, vs, rfl, hbefore, hd, hrest, hd', hvalue, -⟩ := h.declares holds
  obtain ⟨middle, hs, e', behind, ws, rfl, hmiddle, -, hbehind, he', hmember, hsame⟩ :=
    hrest.declares calls
  obtain ⟨object', rfl, hobject⟩ := hvalue.of_single
  obtain ⟨⟨part', parts⟩, rfl, hpart⟩ := hmember.of_single
  have hpartSame := (List.forall₂_cons.mp hsame).1 member
  obtain rfl : part' = part := hpartSame.tag
  obtain ⟨_, hnode, hparts, -⟩ := hpart.of_stays (Kind.stays_of_isMember member)
  obtain ⟨-, rfl⟩ := node.inj hnode
  obtain ⟨r, keys', rfl, hr, hkeys⟩ := hparts.of_cons
  obtain rfl := hr.eq_of_known refers held
  exact ⟨before, gs, d', middle, hs, e', behind, object', keys', rfl, hd', he', hbefore, hobject,
    hbefore.append (hd.append hmiddle), hkeys, hbehind⟩

/-- A method call that stays after all is reworked as before. -/
theorem Reworked.chain_call {part : Tag} {args args' : List Branch} (hM : known ⊆ M)
    (ih : Chains known M n)
    (hn : nodeCount ds' + nodeCount es + nodeCount cs' + nodeCount args' ≤ n)
    (hds : ListReworked (some known) M ds ds')
    (h : Reworked none known ds a (.node tag (.node part cs :: args))) (hcall : tag.kind = .call)
    (hpart : part.kind.isMember = true) (callee : AllReworked (some known) M es cs cs')
    (arguments : AllReworked (some known) M es args args')
    (fixed : AllReworked (some known) M [] args args' ∧
        ((Branch.node part cs).isAlterable known = false →
          (Branch.node part cs').isAlterable M = false) ∨
      (Branch.node part cs').isAlterable M = false) :
    Reworked none M (ds' ++ es) a (.node tag (.node part cs' :: args')) := by
  cases h with
  | node _ _ _ method children =>
    rw [children.startsWithMember hpart] at method
    cases method hcall
  | list _ list =>
    rw [hcall] at list
    cases list
  | choice _ choice =>
    rw [hcall] at choice
    cases choice
  | intact _ _ _ member before passed =>
    have hcallee := before.chain ih (by omega) hds callee
    rcases fixed with ⟨hnone, -⟩ | hfixed
    · refine .intact tag part hcall hpart hcallee (passed.chain ih ?_ .nil hnone) (by simp)
      simp only [nodeCount_nil]
      omega
    · refine .held tag part hcall hpart hcallee ((passed.chain ih ?_ .nil arguments).mono ?_) hfixed
      · simp only [nodeCount_nil]
        omega
      · exact List.sublist_append_right _ _
  | held _ _ _ member before passed hbefore =>
    refine .held tag part hcall hpart (before.chain ih (by omega) hds callee)
      (passed.chain ih (by omega) hds arguments) ?_
    rcases fixed with ⟨-, hfixed⟩ | hfixed
    · exact hfixed hbefore
    · exact hfixed
  | taken _ _ _ _ _ _ result | decided _ _ _ _ _ _ _ _ result
  | compound _ _ _ _ _ _ _ _ _ _ _ result =>
    obtain ⟨rfl, -⟩ := node.inj result
    cases hcall
  | chosen _ _ _ _ length =>
    have hkind : (Branch.choosing _ _ _ _ _).1.kind = .call := hcall
    rw [kind_choosing _ _ _ length] at hkind
    cases hkind
  | method tag₀ part₀ reference j k l m kind member alterable split holds calls refers held called
      first others passed result =>
    subst split
    obtain ⟨rfl, hparts⟩ := node.inj result
    obtain ⟨hfunction, rfl⟩ := List.cons.inj hparts
    obtain ⟨rfl, rfl⟩ := node.inj hfunction
    obtain ⟨f, rfl, hf⟩ := callee.of_single
    obtain ⟨r, args', rfl, hr, harguments⟩ := arguments.of_cons
    obtain rfl := hf.eq_of_known rfl called
    obtain rfl := hr.eq_of_known rfl held
    obtain ⟨before, gs, d', middle, hs, e', behind, object', keys', rfl, hd', he', hbefore,
      hobject, hbetween, hkeys, hbehind⟩ :=
      hds.declares_method holds calls member refers held
    simp only [nodeCount_append, nodeCount_cons, hd'.length_ids, he'.length_ids, nodeCount_nil,
      Branch.length_ids] at hn
    have hfirst := ih (by omega) hbefore first hobject
    have hothers := others.chain ih
      (by simp only [nodeCount_append, nodeCount_cons, nodeCount_nil, hd'.length_ids]; omega)
      hbetween hkeys
    have hpassed := passed.chain ih (by omega) hbehind harguments
    have hsplit : before ++ gs ++ d' :: (middle ++ hs ++ e' :: behind) ++ es =
        before ++ gs ++ d' :: (middle ++ hs ++ e' :: (behind ++ es)) := by simp
    have hstands : before ++ (gs ++ [d'] ++ middle) ++ hs =
        before ++ gs ++ d' :: (middle ++ hs) := by simp
    exact .method tag₀ part₀ reference j k l m kind member (by simp) hsplit hd' he' refers (hM held)
      (hM called) hfirst (hstands ▸ hothers) hpassed rfl

/-- A method call that is rewritten only then is as it was before. -/
theorem Reworked.chain_method {earlier between later keys keys' args args' : List Branch}
    {e object object' : Branch} {function receiver : String} {part reference : Tag}
    {j k l m : NodeId} (ih : Chains known M n)
    (hn : nodeCount ds' + nodeCount es + nodeCount args' ≤ n)
    (hds : ListReworked (some known) M ds ds')
    (h : Reworked none known ds a (.node tag (.node part (object :: keys) :: args)))
    (hcall : tag.kind = .call) (hpart : part.kind.isMember = true)
    (alterable : (Branch.node part (object :: keys)).isAlterable known = true)
    (split : es = earlier ++ d :: (between ++ e :: later)) (holds : d.Declares receiver [object'])
    (calls : e.Declares function [.node part (.node reference [] :: keys')])
    (refers : reference.kind = .name receiver) (held : receiver ∈ M) (called : function ∈ M)
    (first : Reworked (some known) M earlier object object')
    (others : AllReworked (some known) M (earlier ++ d :: between) keys keys')
    (arguments : AllReworked (some known) M later args args') :
    Reworked none M (ds' ++ es) a (.made j .call tag.span
      (.made k (.property "call") tag.span [.madeName l function tag.span] ::
        .madeName m receiver tag.span :: args')) := by
  cases h with
  | node _ _ _ method children =>
    rw [children.startsWithMember hpart] at method
    cases method hcall
  | list _ list =>
    rw [hcall] at list
    cases list
  | choice _ choice =>
    rw [hcall] at choice
    cases choice
  | intact _ _ _ _ before passed =>
    cases before with
    | cons hobject hkeys =>
      subst split
      simp only [nodeCount_append, nodeCount_cons, holds.length_ids, calls.length_ids,
        nodeCount_nil, Branch.length_ids] at hn
      have hfirst := ih (by omega) hds hobject first
      have hothers := hkeys.chain ih
        (by simp only [nodeCount_append, nodeCount_cons, nodeCount_nil, holds.length_ids]; omega)
        hds others
      have hpassed := passed.chain ih (by simp only [nodeCount_nil]; omega) .nil arguments
      rw [← List.append_assoc] at hothers ⊢
      exact .method tag part reference j k l m hcall hpart (by simp) rfl holds calls refers held
        called hfirst hothers hpassed rfl
  | held _ _ _ member before passed hbefore =>
    rw [alterable] at hbefore
    cases hbefore
  | taken _ _ _ _ _ _ result | decided _ _ _ _ _ _ _ _ result
  | compound _ _ _ _ _ _ _ _ _ _ _ result =>
    obtain ⟨rfl, -⟩ := node.inj result
    cases hcall
  | chosen _ _ _ _ length =>
    have hkind : (Branch.choosing _ _ _ _ _).1.kind = .call := hcall
    rw [kind_choosing _ _ _ length] at hkind
    cases hkind
  | method _ _ _ _ _ _ _ _ _ _ _ _ _ _ _ called _ _ _ result =>
    obtain ⟨-, hparts⟩ := node.inj result
    rw [(List.cons.inj hparts).1] at alterable
    simp [isAlterable, tags, Tag.isAlterable, made, madeName, called] at alterable

/-- What branches have become can be reworked further. -/
theorem chains (hM : known ⊆ M) (n : Nat) : Chains known M n := by
  induction n with
  | zero =>
    intro ds ds' es a b c hn
    obtain ⟨tag, cs⟩ := c
    rw [Branch.length_ids] at hn
    omega
  | succ n ih =>
    intro ds ds' es a b c hn hds h h'
    -- What is left gets smaller below a node, and where a name stands for what is declared.
    cases h' with
    | node tag list choice method children bound =>
      rw [Branch.length_ids] at hn
      exact h.chain_node hM ih (by omega) hds list choice method children bound
    | list tag list statements =>
      rw [Branch.length_ids] at hn
      obtain ⟨bs, rfl, hbs⟩ := h.of_list list
      exact .list tag list (hbs.chain ih (by omega) statements)
    | choice tag choice head bound tail =>
      obtain ⟨first, rest, first', rest', rfl, hparts, hfirst, hbound, hrest⟩ :=
        h.of_choice choice (List.cons_ne_nil _ _)
      obtain ⟨rfl, rfl⟩ := List.cons.inj hparts
      rw [Branch.length_ids, nodeCount_cons] at hn
      refine .choice tag choice (ih (by omega) hds hfirst head) (fun hk => ?_)
        (hrest.chain ih (by simp only [nodeCount_nil]; omega) .nil tail)
      exact (hbound hk).trans (bound (by rwa [show Branch.kind _ = _ from
        congrArg Tag.kind (hbound hk).tag]))
    | intact tag part call member callee arguments fixed =>
      rw [Branch.length_ids, nodeCount_cons, Branch.length_ids] at hn
      exact h.chain_call hM ih (by omega) hds call member callee
        (arguments.mono (List.nil_sublist _)) (.inl ⟨arguments, fixed known rfl⟩)
    | held tag part call member callee arguments fixed =>
      rw [Branch.length_ids, nodeCount_cons, Branch.length_ids] at hn
      exact h.chain_call hM ih (by omega) hds call member callee arguments (.inr fixed)
    | taken id span split declares alterable value result =>
      subst split
      simp only [nodeCount_append, nodeCount_cons, declares.length_ids, nodeCount_nil] at hn
      have hvalue := ih (by omega) hds h value
      rw [← List.append_assoc]
      exact .taken id span rfl declares (by simp) hvalue result
    | @decided _ earlier between later operands _ d statement op name size tag id span kind length
        split declares value result =>
      subst split result
      obtain ⟨before, rfl, hlength, htag, hchildren⟩ :=
        h.choosing_of_choice kind length size (some name) tag.span
      have hstatement : Reworked none known ds
          (Branch.choosing size (some name) tag.span op before).1
          (Branch.choosing size (some name) tag.span op operands).1 :=
        .of_children hchildren htag (kind_choosing _ _ _ hlength)
      have hsize : nodeCount ds' + nodeCount (earlier ++ d :: between) + statement.ids.length
          ≤ n := by
        simp only [nodeCount_append, nodeCount_cons, made, madeName, Branch.length_ids,
          nodeCount_nil] at hn ⊢
        omega
      have hvalue := ih hsize hds hstatement value
      rw [← List.append_assoc] at hvalue ⊢
      exact .decided tag id span kind hlength rfl declares hvalue rfl
    | chosen root tag statement kind length children =>
      rw [Branch.length_ids] at hn
      obtain ⟨cs, rfl, hroot, -⟩ := h.of_stays (by rw [statement]; rfl)
      cases hroot with
      | cons head tail =>
        cases tail
        obtain ⟨before, rfl, hlength, htag, hchildren⟩ :=
          head.choosing_of_choice kind length _ none tag.span
        rw [htag]
        exact .chosen root tag statement kind hlength (hchildren.chain ih (by omega) hds children)
    | compound tag i j k span kind declared declares held target value result =>
      subst result
      obtain ⟨cs, rfl, hparts, -⟩ := h.of_stays (by rw [kind]; rfl)
      simp only [made, Branch.length_ids, nodeCount_cons, nodeCount_nil] at hn
      cases hparts with
      | cons hw tail =>
        cases tail with
        | cons hv tail =>
          cases tail
          exact .compound tag i j k span kind (List.mem_append_right _ declared) declares held
            (ih (by omega) hds hw target) (ih (by omega) hds hv value) rfl
    | method tag part reference j k l m kind member alterable split holds calls refers held called
        first others arguments result =>
      subst result
      simp only [made, madeName, Branch.length_ids, nodeCount_cons, nodeCount_nil] at hn
      exact h.chain_method ih (by omega) hds kind member (alterable known rfl) split holds calls
        refers held called first others arguments

/-- What a branch has become can be reworked further. -/
theorem Reworked.trans (hM : known ⊆ M) (h : Reworked none known [] a b)
    (h' : Reworked (some known) M [] b c) : Reworked none M [] a c :=
  chains hM _ (Nat.le_refl _) .nil h h'

end Chains

end Branch

end Hoist
