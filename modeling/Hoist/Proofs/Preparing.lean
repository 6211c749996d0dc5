import Hoist.Proofs.Tame

namespace Hoist

universe u

variable {Value : Type u} {m : Machine Value} {p : String} {n : Nat}

/-- Runs branches, one after the other, for what they do. -/
def runAll (m : Machine Value) (p : String) (ds : List Branch) (w : World Value) : World Value :=
  (Effect.inOrder (ds.map (Branch.run m p)) w).2

theorem runAll_cons (d : Branch) (ds : List Branch) (w : World Value) :
    runAll m p (d :: ds) w = runAll m p ds (d.run m p w).2 := rfl

theorem runAll_append (ds es : List Branch) (w : World Value) :
    runAll m p (ds ++ es) w = runAll m p es (runAll m p ds w) := by
  rw [runAll, List.map_append, Effect.inOrder_append]
  rfl

theorem run_name {tag : Tag} {x : String} (h : tag.kind = .name x) (w : World Value) :
    (Branch.node tag []).run m p w = (w.store x, w) := by
  rw [run_node, h]
  rfl

theorem run_madeName (id : NodeId) (x : String) (span : Span) (w : World Value) :
    (Branch.madeName id x span).run m p w = (w.store x, w) :=
  run_name rfl w

theorem run_declaring (first : NodeId) (x : String) (b : Branch) (w : World Value) :
    ((Branch.declaring first x b).run m p w).2 = (b.run m p w).2.assign x (b.run m p w).1 := by
  simp only [Branch.declaring, Branch.made, run_node, List.map_cons, List.map_nil]
  rfl

/-- What is left of an action when part of it is prepared for: the same comes of it, and the
temporaries that are assigned once stay, apart from those between two numbers. -/
structure Prepared (p : String) (n l : Nat) (a : Effect Value) (prepare : World Value → World Value)
    (b : Effect Value) : Prop where
  same : ∀ w w', Agree p n w w' → Alike p n (a w) (b (prepare w'))
  keeps : ∀ w k, k < n ∨ l ≤ k →
    (prepare w).store (constantAt p k) = w.store (constantAt p k)

/-- A pass over a statement since which a number of temporaries had been made. -/
structure Pass.Ready (p : String) (n : Nat) (s : Pass) : Prop where
  effects : s.effects = true
  tempPrefix : s.supply.tempPrefix = p
  constants : ∀ x ∈ s.supply.constants, ∃ k, x = constantAt p k
  started : n ≤ s.supply.nextId

/-- A pass takes out what actions do, and others give the values. -/
structure Pass.Defers (m : Machine Value) (p : String) (n : Nat) (s r : Pass)
    (before after : List (Effect Value)) (ds : List Branch) : Prop where
  ready : r.Ready p n
  grows : s.supply.nextId ≤ r.supply.nextId
  taken : r.taken = ds ++ s.taken
  same : ∀ w w', Agree p n w w' → Agree p n (Effect.inOrder before w).2 (runAll m p ds w') ∧
    ∀ u : World Value, (∀ k, k < n ∨ s.supply.nextId ≤ k →
      u.store (constantAt p k) = (runAll m p ds w').store (constantAt p k)) →
      Effect.inOrder after u = ((Effect.inOrder before w).1, u)
  keeps : ∀ w k, k < s.supply.nextId ∨ r.supply.nextId ≤ k →
    (runAll m p ds w).store (constantAt p k) = w.store (constantAt p k)

namespace Pass

variable {s r : Pass}

theorem constantName_eq (hs : s.Ready p n) :
    s.supply.constantName = constantAt p s.supply.nextId := by
  rw [Supply.constantName, hs.tempPrefix]
  rfl

theorem defers_nil (hs : s.Ready p n) : s.Defers m p n s [] [] [] where
  ready := hs
  grows := Nat.le_refl _
  taken := rfl
  same _ _ hw := ⟨hw, fun _ _ => rfl⟩
  keeps _ _ _ := rfl

/-- A pass that draws one more temporary is ready. -/
theorem Ready.next {b : Branch} (hs : s.Ready p n) : (s.takeOut b).2.Ready p n where
  effects := rfl
  tempPrefix := hs.tempPrefix
  constants x hx := by
    simp only [takeOut, Supply.grow, Supply.afterConstant] at hx
    split at hx
    · exact hs.constants x hx
    · rcases List.mem_append.mp hx with hx | hx
      · exact hs.constants x hx
      · exact ⟨_, (List.mem_singleton.mp hx).trans (constantName_eq hs)⟩
  started := Nat.le_succ_of_le hs.started

/-- What is taken out is evaluated before the rest, and where it was its value is read. -/
theorem Defers.cons {b : Branch} {before after : List (Effect Value)} {ds : List Branch}
    (h : s.Defers m p n r before after ds) (hstart : n ≤ s.supply.nextId) (hb : b.Tame p n)
    (ho : b.All Kind.isOperation) :
    ∃ es, s.Defers m p n (r.takeIfNeeded b).2 (b.run m p :: before)
      ((r.takeIfNeeded b).1.run m p :: after) es := by
  have hstarted := h.ready.started
  have hgrows := h.grows
  rw [takeIfNeeded, Branch.mustPrecede, if_pos h.ready.effects]
  cases hu : b.isAlterable r.supply.constants with
  | true =>
    have hname := constantName_eq h.ready
    refine ⟨_ :: ds, h.ready.next, Nat.le_succ_of_le h.grows,
      congrArg (_ :: ·) h.taken, fun w w' hw => ?_, fun w k hk => ?_⟩
    · have hrun := hb.runs_alike (m := m) w w' hw
      have hnew : ¬ Known p n (constantAt p r.supply.nextId) := by
        intro hknown
        have hlt := lt_of_known_constantAt hknown
        omega
      obtain ⟨hworld, hafter⟩ := h.same _ _
        (hrun.world.assign_right hnew (b.run m p w').1)
      rw [runAll_cons, run_declaring, hname]
      refine ⟨hworld, fun u hu' => ?_⟩
      have hvalue : u.store (constantAt p r.supply.nextId) = (b.run m p w).1 := by
        rw [hu' _ (.inr hgrows), h.keeps _ _ (.inr (Nat.le_refl _)), hrun.value,
          World.assign_store]
      rw [if_pos rfl, takeOut, Effect.inOrder, run_madeName, hname]
      dsimp only
      rw [hafter u hu', hvalue]
      rfl
    · have hlater : (if true = true then r.takeOut b else (b, r)).2.supply.nextId =
          r.supply.nextId + 1 := rfl
      rw [hlater] at hk
      have hne : constantAt p k ≠ constantAt p r.supply.nextId := by
        intro he
        have heq := constantAt_injective he
        omega
      rw [runAll_cons, run_declaring, h.keeps _ _ (by omega), hname]
      exact (World.assign_store_of_ne _ hne _).trans
        (hb.run_store (ho.mono fun _ => Kind.declaresNothing_of_isOperation) w k)
  | false =>
    rw [if_neg (by simp)]
    refine ⟨ds, h.ready, h.grows, h.taken, fun w w' hw => ?_, h.keeps⟩
    obtain ⟨v, hv⟩ := hb.inert (m := m) ho h.ready.constants hu w
    have hself : b.run m p w = (v, w) := hv w fun _ _ => rfl
    obtain ⟨hworld, hafter⟩ := h.same w w' hw
    simp only [Effect.inOrder, hself]
    refine ⟨hworld, fun u hu' => ?_⟩
    have hheld : Holding p n w u := by
      intro k hk
      rw [hu' k (.inl hk), h.keeps w' k (.inl (by omega))]
      exact (hw.store _ (known_constantAt hk)).symm
    rw [hv u hheld]
    dsimp only
    rw [hafter u hu']

theorem takeAll_defers {o : List Branch} (hs : s.Ready p n) (ho : ∀ b ∈ o, b.Tame p n)
    (hop : ∀ b ∈ o, b.All Kind.isOperation) : ∃ ds, s.Defers m p n (s.takeAll o).2
      (o.map (Branch.run m p)) ((s.takeAll o).1.map (Branch.run m p)) ds := by
  induction o with
  | nil => exact ⟨[], defers_nil hs⟩
  | cons b o ih =>
    obtain ⟨hb, ho⟩ := List.forall_mem_cons.mp ho
    obtain ⟨hbop, hop⟩ := List.forall_mem_cons.mp hop
    obtain ⟨ds, hrest⟩ := ih ho hop
    exact hrest.cons hs.started hb hbop

end Pass

/-- A frame runs what is evaluated in its place with the other children of its node. -/
def Frame.run (m : Machine Value) (p : String) (f : Frame) (a : Effect Value) : Effect Value :=
  f.tag.kind.run m p (firstName f.left)
    (f.left.map (Branch.run m p) ++ a :: f.right.map (Branch.run m p))

/-- Frames run what is evaluated in their place, the innermost first. -/
def runFrames (m : Machine Value) (p : String) : List Frame → Effect Value → Effect Value
  | [], a => a
  | f :: z, a => runFrames m p z (f.run m p a)

theorem runFrames_append (z gs : List Frame) (a : Effect Value) :
    runFrames m p (z ++ gs) a = runFrames m p gs (runFrames m p z a) := by
  induction z generalizing a with
  | nil => rfl
  | cons f z ih => exact ih (f.run m p a)

namespace Kind

variable {kind : Kind} {target : Option String}

/-- Where nothing is assigned the first child is no target. -/
theorem run_target (h : kind.assignsFirst = false) (hv : kind ≠ .var) (target target' : Option String)
    (parts : List (Effect Value)) : kind.run m p target parts = kind.run m p target' parts := by
  have hconclude : ∀ values, kind.conclude m p target values = kind.conclude m p target' values := by
    intro values
    funext w
    unfold conclude
    split
    · rfl
    · rfl
    · rw [assigned_eq_none h hv, update_none, update_none]
  unfold run
  simp only [hconclude]

theorem run_around (hs : kind.isSelective = false) (ha : kind ≠ .assign)
    (before rest : List (Effect Value)) (a : Effect Value) (w : World Value) :
    kind.run m p target (before ++ a :: rest) w =
      kind.conclude m p target ((Effect.inOrder before w).1 ++ (a (Effect.inOrder before w).2).1 ::
          (Effect.inOrder rest (a (Effect.inOrder before w).2).2).1)
        (Effect.inOrder rest (a (Effect.inOrder before w).2).2).2 := by
  unfold run
  simp only [hs, Bool.false_eq_true, if_false, if_neg ha, Effect.inOrder_append, Effect.inOrder]

theorem run_assign (first : Effect Value) (rest : List (Effect Value)) (w : World Value) :
    Kind.run m p .assign target (first :: rest) w =
      Kind.conclude m p .assign target (Effect.inOrder rest w).1 (Effect.inOrder rest w).2 := rfl

theorem run_assign_name (x : String) (first a : Effect Value) (w : World Value) :
    Kind.run m p .assign (some x) [first, a] w = ((a w).1, (a w).2.assign x (a w).1) := rfl

theorem run_assignOp_name (op : BinaryOp) (x : String) (a b : Effect Value) (w : World Value) :
    Kind.run m p (.assignOp op) (some x) [a, b] w = (m.binary op (a w).1 (b (a w).2).1,
      (b (a w).2).2.assign x (m.binary op (a w).1 (b (a w).2).1)) := rfl

theorem run_binary (op : BinaryOp) (target : Option String) (a b : Effect Value) (w : World Value) :
    Kind.run m p (.binary op) target [a, b] w =
      (m.binary op (a w).1 (b (a w).2).1, (b (a w).2).2) := by
  cases target <;> rfl

end Kind

/-- A frame of which only the first child is always evaluated has none before its place. -/
theorem run_fill {f : Frame} {b : Branch} (hf : f.Tame p n) (hv : f.tag.kind ≠ .var) :
    (f.fill b).run m p = f.run m p (b.run m p) := by
  rw [Frame.fill, run_node, Frame.run, List.map_append, List.map_cons]
  cases hl : f.left with
  | cons => rfl
  | nil =>
    refine Kind.run_target ?_ hv _ _ _
    cases ha : f.tag.kind.assignsFirst with
    | false => rfl
    | true => exact absurd hl (hf.target ha).1

theorem run_plug {z : List Frame} {b : Branch} (hz : ∀ f ∈ z, f.Tame p n)
    (hv : ∀ f ∈ z, f.tag.kind ≠ .var) : (plug z b).run m p = runFrames m p z (b.run m p) := by
  induction z generalizing b with
  | nil => rfl
  | cons f z ih =>
    obtain ⟨hf, hz⟩ := List.forall_mem_cons.mp hz
    obtain ⟨hfv, hv⟩ := List.forall_mem_cons.mp hv
    rw [plug_cons, ih hz hv, run_fill hf hfv]
    rfl

/-- A node between an expression that is always evaluated and its statement. -/
structure Frame.Passed (p : String) (n : Nat) (f : Frame) : Prop where
  tame : f.Tame p n
  operation : f.tag.kind.isOperation = true
  left : ∀ b ∈ f.left, b.All Kind.isOperation
  selective : f.tag.kind.isSelective = true → f.left = []
  assignment : f.tag.kind = .assign ∨ (∃ op, f.tag.kind = .assignOp op) →
    ∃ target x, f.left = [target] ∧ f.right = [] ∧
      target.kind = .name x ∧ target.children = []
  increment : ∀ isDecrement isPostfix, f.tag.kind ≠ .increment isDecrement isPostfix

/-- An assignment on the way to an expression has a name for its target. -/
theorem Frame.Passed.target {p : String} {n : Nat} {tag : Tag} {target : Branch}
    {rest right : List Branch} (h : Frame.Passed p n ⟨tag, target :: rest, right⟩)
    (hk : tag.kind = .assign ∨ ∃ op, tag.kind = .assignOp op) :
    rest = [] ∧ right = [] ∧ ∃ own x, target = .node own [] ∧ own.kind = .name x := by
  obtain ⟨⟨own, children⟩, x, hl, hr, hx, hnone⟩ := h.assignment hk
  obtain ⟨rfl, rfl⟩ := List.cons.inj hl
  obtain rfl : children = [] := hnone
  exact ⟨rfl, hr, own, x, rfl, hx⟩

/-- No member that is called is on the way to an expression. -/
theorem Frame.Passed.isMember_eq_false {p : String} {n : Nat} {tag part : Tag}
    {parts rest right : List Branch} (h : Frame.Passed p n ⟨tag, .node part parts :: rest, right⟩) :
    part.kind.isMember = false :=
  (h.tame.left _ List.mem_cons_self).isMember_eq_false

namespace Prepared

variable {l : Nat} {a b : Effect Value} {prepare : World Value → World Value} {s r : Pass}
  {kind : Kind} {target : Option String} {rest : List (Effect Value)}

/-- What is prepared for can run first in a node. -/
theorem first (h : Prepared p n l a prepare b) (hk : ∀ x, kind = .name x → Known p n x)
    (hassign : kind ≠ .assign) (hrest : List.Forall₂ (Matches p n) rest rest) :
    Prepared p n l (kind.run m p target (a :: rest)) prepare (kind.run m p target (b :: rest)) where
  same w w' hw := Kind.run_cons hk hassign (h.same w w' hw) hrest
  keeps := h.keeps

/-- What is prepared for can be assigned. -/
theorem assign (h : Prepared p n l a prepare b) (first first' : Effect Value)
    (hrest : List.Forall₂ (Matches p n) rest rest) :
    Prepared p n l (Kind.run m p .assign target (first :: a :: rest)) prepare
      (Kind.run m p .assign target (first' :: b :: rest)) where
  same w w' hw := by
    have hvalue := h.same w w' hw
    obtain ⟨hvalues, hworld⟩ := Effect.inOrder_alike hrest hvalue.world
    rw [Kind.run_assign, Kind.run_assign, Effect.inOrder, Effect.inOrder]
    dsimp only
    rw [hvalue.value, hvalues]
    exact Kind.conclude_alike (fun _ hk => by cases hk) _ hworld
  keeps := h.keeps

/-- What runs before it can be prepared for, too. -/
theorem around {before after : List (Effect Value)} {ds : List Branch}
    (h : Prepared p n s.supply.nextId a prepare b) (hd : s.Defers m p n r before after ds)
    (hstart : n ≤ s.supply.nextId) (hk : ∀ x, kind = .name x → Known p n x)
    (hs : kind.isSelective = false) (hassign : kind ≠ .assign)
    (hrest : List.Forall₂ (Matches p n) rest rest) :
    Prepared p n r.supply.nextId (kind.run m p target (before ++ a :: rest))
      (fun w => prepare (runAll m p ds w)) (kind.run m p target (after ++ b :: rest)) where
  same w w' hw := by
    obtain ⟨hworld, hafter⟩ := hd.same w w' hw
    have hvalue := h.same _ _ hworld
    obtain ⟨hvalues, hend⟩ := Effect.inOrder_alike hrest hvalue.world
    rw [Kind.run_around hs hassign, Kind.run_around hs hassign,
      hafter _ fun k hk => h.keeps _ k hk]
    dsimp only
    rw [hvalue.value, hvalues]
    exact Kind.conclude_alike hk _ hend
  keeps w k hk := by
    have hgrows := hd.grows
    rw [h.keeps _ k (by omega), hd.keeps w k (by omega)]

end Prepared

theorem Branch.Tame.matches_all {bs : List Branch} (h : ∀ b ∈ bs, b.Tame p n) :
    List.Forall₂ (Matches p n) (bs.map (Branch.run m p)) (bs.map (Branch.run m p)) := by
  refine List.forall₂_same.mpr fun a ha => ?_
  obtain ⟨b, hb, rfl⟩ := List.mem_map.mp ha
  exact (h b hb).runs_alike

/-- What becomes of a compound assignment to a name that is read first. -/
theorem Pass.splitCompound_name (s : Pass) (tag own : Tag) (op : BinaryOp)
    (h : Branch.readMustPrecede s.supply.constants s.effects (.node own []) = true) :
    s.splitCompound tag (.node own []) op =
      ([⟨⟨s.supply.size + 1, .binary op, tag.span, false⟩,
          [.madeName (s.supply.size + 3) (s.supply.grow 3).constantName own.span], []⟩,
        ⟨⟨s.supply.size + 2, .assign, tag.span, false⟩, [.node own []], []⟩],
      ⟨true, .declaring (s.supply.size + 4) (s.supply.grow 3).constantName
          (.node { own with id := s.supply.size } []) :: s.taken,
        (s.supply.grow 3).afterConstant.grow 3⟩) := by
  have hparts : ({ s with taken := [] } : Pass).takeParts (.node own []) =
      (.node own [], { s with taken := [] }) := rfl
  have hids : (Branch.node own []).ids = [own.id] := by simp [Branch.ids]
  rw [splitCompound, hparts]
  dsimp only
  rw [if_pos h, hids]
  rfl

namespace Frame.Passed

variable {s : Pass} {a b : Effect Value} {prepare : World Value → World Value}

theorem kind_ne_var {f : Frame} (hf : f.Passed p n) : f.tag.kind ≠ .var :=
  Kind.isOperation_ne_var hf.operation

/-- What a node evaluates first can be prepared for. -/
theorem prepares_left {tag : Tag} {first : Branch} {rest right : List Branch}
    (hf : Frame.Passed p n ⟨tag, first :: rest, right⟩) (hs : s.Ready p n)
    (hassign : tag.kind ≠ .assign) (hcompound : ∀ op, tag.kind ≠ .assignOp op)
    (h : Prepared p n s.supply.nextId a prepare b) :
    ∃ ds, (s.takeAll (first :: rest)).2.taken = ds ++ s.taken ∧
      (s.takeAll (first :: rest)).2.Ready p n ∧
      Prepared p n (s.takeAll (first :: rest)).2.supply.nextId
        (Frame.run m p ⟨tag, first :: rest, right⟩ a) (fun w => prepare (runAll m p ds w))
        (Frame.run m p ⟨tag, (s.takeAll (first :: rest)).1, right⟩ b) := by
  obtain ⟨ds, hd⟩ := Pass.takeAll_defers (m := m) hs hf.tame.left hf.left
  have hselective : tag.kind.isSelective = false := by
    cases hk : tag.kind.isSelective with
    | false => rfl
    | true => cases hf.selective hk
  have hfirst : tag.kind.assignsFirst = false := by
    unfold Kind.assignsFirst
    split
    · exact absurd ‹_› hassign
    · exact absurd ‹_› (hcompound _)
    · exact absurd ‹_› (hf.increment _ _)
    · rfl
  have hright := Branch.Tame.matches_all (m := m) hf.tame.right
  have hprepared : ∀ target : Option String, Prepared p n _ (tag.kind.run m p target _) _
      (tag.kind.run m p target _) := fun _ =>
    h.around hd hs.started hf.tame.name hselective hassign hright
  refine ⟨ds, hd.taken, hd.ready, ?_⟩
  rw [Frame.run, Frame.run, Kind.run_target hfirst hf.kind_ne_var
    (firstName (s.takeAll (first :: rest)).1) (firstName (first :: rest))]
  exact hprepared _

/-- A name that a compound assignment assigns has to be read first. -/
theorem target_read {tag own : Tag} {op : BinaryOp} {x : String}
    (hf : Frame.Passed p n ⟨tag, [.node own []], []⟩) (hs : s.Ready p n)
    (hk : tag.kind = .assignOp op) (hx : own.kind = .name x) :
    Known p n x ∧ (∀ k, x ≠ constantAt p k) ∧
      Branch.readMustPrecede s.supply.constants s.effects (.node own []) = true := by
  have htarget : (Branch.node own []).Tame p n := hf.tame.left _ (by simp)
  have hassigned : ∀ k, x ≠ constantAt p k := by
    intro k he
    refine (hf.tame.target (by rw [hk]; rfl)).2 k ?_
    rw [← he]
    exact congrArg Kind.name? hx
  refine ⟨?_, hassigned, ?_⟩
  · cases htarget with
    | node _ _ name => exact name x hx
  · have hneed : Branch.isAlterable s.supply.constants (.node own []) = true := by
      by_contra hu
      obtain ⟨k, -, he⟩ := htarget.eq_constantAt hs.constants (by simpa using hu) hx
      exact hassigned k he
    rw [Branch.readMustPrecede, Branch.kind_node, hx]
    simpa [Kind.isMember, Branch.mustPrecede, hs.effects] using hneed

/-- The target of a compound assignment is read first and assigned last. -/
theorem prepares_compound {tag own : Tag} {op : BinaryOp} {x : String}
    (hf : Frame.Passed p n ⟨tag, [.node own []], []⟩) (hs : s.Ready p n)
    (hk : tag.kind = .assignOp op) (hkind : own.kind = .name x)
    (h : Prepared p n s.supply.nextId a prepare b) :
    ∃ ds, (s.splitCompound tag (.node own []) op).2.taken = ds ++ s.taken ∧
      (s.splitCompound tag (.node own []) op).2.Ready p n ∧
      Prepared p n (s.splitCompound tag (.node own []) op).2.supply.nextId
        (Frame.run m p ⟨tag, [.node own []], []⟩ a) (fun w => prepare (runAll m p ds w))
        (runFrames m p (s.splitCompound tag (.node own []) op).1 b) := by
  obtain ⟨hknown, -, hread⟩ := hf.target_read hs hk hkind
  rw [Pass.splitCompound_name s tag own op hread]
  have hname : (s.supply.grow 3).constantName = constantAt p s.supply.nextId :=
    Pass.constantName_eq hs
  have hready := hs.next (b := .node own [])
  refine ⟨[_], rfl, ⟨rfl, hready.tempPrefix, hready.constants, hready.started⟩, ?_, ?_⟩
  · intro w w' hw
    have hstarted := hs.started
    have hnew : ¬ Known p n (constantAt p s.supply.nextId) := by
      intro hknown
      have hlt := lt_of_known_constantAt hknown
      omega
    have hvalue := h.same w _ (hw.assign_right hnew (w'.store x))
    have hheld : (prepare (w'.assign (constantAt p s.supply.nextId) (w'.store x))).store
        (constantAt p s.supply.nextId) = w.store x := by
      rw [h.keeps _ _ (.inr (Nat.le_refl _)), World.assign_store, hw.store x hknown]
    have hcopy : ∀ w : World Value,
        (Branch.node { own with id := s.supply.size } []).run m p w = (w.store x, w) := run_name hkind
    have htarget : firstName [Branch.node own []] = some x := congrArg Kind.name? hkind
    have hprepared : runAll m p [.declaring (s.supply.size + 4) (s.supply.grow 3).constantName
        (.node { own with id := s.supply.size } [])] w' =
          w'.assign (constantAt p s.supply.nextId) (w'.store x) := by
      rw [runAll_cons, run_declaring, hcopy, hname]
      rfl
    rw [hprepared]
    generalize prepare (w'.assign (constantAt p s.supply.nextId) (w'.store x)) = u at hvalue hheld
    have hbefore : Frame.run m p ⟨tag, [.node own []], []⟩ a w =
        (m.binary op (w.store x) (a w).1,
          (a w).2.assign x (m.binary op (w.store x) (a w).1)) := by
      simp only [Frame.run, List.map_cons, List.map_nil, List.cons_append, List.nil_append]
      rw [hk, htarget, Kind.run_assignOp_name, run_name hkind]
    have hafter : runFrames m p [⟨⟨s.supply.size + 1, .binary op, tag.span, false⟩,
          [.madeName (s.supply.size + 3) (s.supply.grow 3).constantName own.span], []⟩,
        ⟨⟨s.supply.size + 2, .assign, tag.span, false⟩, [.node own []], []⟩] b u =
        (m.binary op (w.store x) (b u).1,
          (b u).2.assign x (m.binary op (w.store x) (b u).1)) := by
      rw [← hheld, ← hname, runFrames, runFrames, runFrames]
      simp only [Frame.run, List.map_cons, List.map_nil, List.cons_append, List.nil_append]
      rw [htarget, Kind.run_assign_name, Kind.run_binary, run_madeName]
    rw [hbefore, hafter, hvalue.value]
    exact ⟨rfl, hvalue.world.assign _ _⟩
  · intro w k hk'
    have hne : constantAt p k ≠ constantAt p s.supply.nextId := by
      intro he
      have heq := constantAt_injective he
      simp only [Supply.grow, Supply.afterConstant] at hk'
      have hstarted := hs.started
      omega
    simp only [Supply.grow, Supply.afterConstant] at hk'
    have hstarted := hs.started
    rw [h.keeps _ k (by omega), runAll_cons, run_declaring, hname]
    exact (World.assign_store_of_ne _ hne _).trans (by rw [run_name (by exact hkind)])

end Frame.Passed

namespace Pass

variable {s r : Pass} {a b : Effect Value} {prepare : World Value → World Value}

/-- What a node evaluates before its place can be prepared for. -/
theorem Exposure.prepares {f : Frame} {gs : List Frame} (he : s.Exposure f gs r)
    (hf : f.Passed p n) (hs : s.Ready p n) (h : Prepared p n s.supply.nextId a prepare b) :
    ∃ ds, r.taken = ds ++ s.taken ∧ r.Ready p n ∧ Prepared p n r.supply.nextId (f.run m p a)
      (fun w => prepare (runAll m p ds w)) (runFrames m p gs b) := by
  cases he with
  | first tag right =>
    have hassign : tag.kind ≠ .assign := fun hk =>
      (hf.tame.target (by rw [hk]; rfl)).1 rfl
    exact ⟨[], rfl, hs, h.first hf.tame.name hassign (Branch.Tame.matches_all hf.tame.right)⟩
  | left tag first rest right hassign hcompound => exact hf.prepares_left hs hassign hcompound h
  | target tag target rest right hk =>
    obtain ⟨rfl, rfl, own, x, rfl, hx⟩ := hf.target (.inl hk)
    refine ⟨[], rfl, hs, ?_⟩
    simp only [runFrames, Frame.run, hk]
    exact h.assign _ _ .nil
  | compound tag op target rest right hk =>
    obtain ⟨rfl, rfl, own, x, rfl, hx⟩ := hf.target (.inr ⟨op, hk⟩)
    exact hf.prepares_compound hs hk hx h
  | callee tag callee rest right hk needless =>
    have hkept : s.takeAll (callee :: rest) = (callee :: (s.takeAll rest).1, (s.takeAll rest).2) := by
      rw [takeAll, takeIfNeeded, if_neg (by simp [needless])]
    have hleft := hf.prepares_left (m := m) hs (by simp [hk]) (by simp [hk]) h
    rw [hkept] at hleft
    exact hleft
  | method tag part object keys rest right hk hm =>
    rw [hf.isMember_eq_false] at hm
    cases hm

/-- What nodes evaluate before their places can be prepared for. -/
theorem exposeFrames_prepares {z : List Frame} (hz : ∀ f ∈ z, f.Passed p n) (hs : s.Ready p n)
    (h : Prepared p n s.supply.nextId a prepare b) :
    ∃ ds, (s.exposeFrames z).2.taken = ds ++ s.taken ∧ (s.exposeFrames z).2.Ready p n ∧
      Prepared p n (s.exposeFrames z).2.supply.nextId (runFrames m p z a)
        (fun w => prepare (runAll m p ds w)) (runFrames m p (s.exposeFrames z).1 b) := by
  induction z generalizing s a b prepare with
  | nil => exact ⟨[], rfl, hs, h⟩
  | cons f z ih =>
    obtain ⟨hf, hz⟩ := List.forall_mem_cons.mp hz
    obtain ⟨ds, htaken, hready, hinner⟩ := (s.exposure f).prepares (m := m) hf hs h
    obtain ⟨es, htaken', hready', houter⟩ := ih hz hready hinner
    refine ⟨es ++ ds, ?_, hready', ?_⟩
    · rw [exposeFrames, htaken', htaken, List.append_assoc]
    · simp only [exposeFrames, runFrames, runFrames_append, runAll_append]
      exact houter

end Pass

end Hoist
