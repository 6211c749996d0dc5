import Hoist.Proofs.Covering
import Hoist.Proofs.Renumbering
import Hoist.Proofs.Rewiring

namespace Hoist

/-- A node whose links are renamed. -/
def Node.rename (f : NodeId → NodeId) (node : Node) : Node :=
  { node with parent := node.parent.map f, children := node.children.map f }

namespace Branch

/-- A branch whose nodes are renamed. -/
def rename (f : NodeId → NodeId) : Branch → Branch
  | .node tag cs => .node { tag with id := f tag.id } (cs.map (rename f))

variable {f : NodeId → NodeId}

@[simp] theorem id_rename (b : Branch) : (b.rename f).id = f b.id := by
  cases b
  rw [rename]
  rfl

theorem stored_rename (b : Branch) (p : Option NodeId) :
    (b.rename f).stored (p.map f) = (b.stored p).rename f := by
  obtain ⟨tag, cs⟩ := b
  simp [rename, stored, Node.rename, kind, span]

theorem records_rename (b : Branch) (p : Option NodeId) :
    (b.rename f).records (p.map f) = (b.records p).map fun r => (f r.1, r.2.rename f) := by
  induction b using induct generalizing p with
  | node tag cs ih =>
    have hstored := stored_rename (f := f) (.node tag cs) p
    rw [rename] at hstored ⊢
    rw [records, records, List.map_cons, hstored, List.flatMap_map, List.map_flatMap]
    congr 1
    exact List.flatMap_congr fun c hc => ih c hc (some tag.id)

theorem ids_rename (b : Branch) : (b.rename f).ids = b.ids.map f := by
  rw [← map_records none, ← map_records none, List.map_map]
  have hrecords := records_rename (f := f) b none
  rw [Option.map_none] at hrecords
  rw [hrecords, List.map_map]
  rfl

theorem shape_rename (b : Branch) : (b.rename f).shape = b.shape := by
  induction b using induct with
  | node tag cs ih =>
    rw [rename, shape, shape, List.map_map]
    congr 1
    exact List.map_congr_left ih

theorem renumberAll_eq {cs : List Branch} (ih : ∀ c ∈ cs, ∀ first,
      c.ids.map f = List.range' first c.ids.length → c.renumber first = c.rename f) {first : Nat}
    (h : (cs.flatMap ids).map f = List.range' first (cs.flatMap ids).length) :
    renumberAll first cs = cs.map (rename f) := by
  induction cs generalizing first with
  | nil => rfl
  | cons c cs ihcs =>
    rw [List.flatMap_cons, List.map_append, List.length_append, ← List.range'_append_1] at h
    obtain ⟨hc, hcs⟩ := List.append_inj h (by simp)
    rw [renumberAll, List.map_cons, ih c List.mem_cons_self first hc,
      ihcs (fun d hd => ih d (List.mem_cons_of_mem _ hd)) hcs]

/-- New names that are counted on along a branch are a renaming. -/
theorem renumber_eq_rename {b : Branch} {first : Nat}
    (h : b.ids.map f = List.range' first b.ids.length) : b.renumber first = b.rename f := by
  induction b using induct generalizing first with
  | node tag cs ih =>
    rw [ids, List.map_cons, List.length_cons, List.range'_succ] at h
    obtain ⟨hid, hcs⟩ := List.cons.inj h
    rw [renumber, rename, renumberAll_eq (fun c hc first => ih c hc) hcs, hid]

end Branch

/-- Names that are counted on along a list. -/
def countOn (first : Nat) (ns : List NodeId) (n : NodeId) : NodeId := first + ns.idxOf n

theorem map_countOn {ns : List NodeId} (h : ns.Nodup) (first : Nat) :
    ns.map (countOn first ns) = List.range' first ns.length := by
  refine List.ext_getElem (by simp) fun i hi _ => ?_
  simp [countOn, h.idxOf_getElem]

namespace Tree

variable {t u v : Tree} {n : NodeId}

/-- Copying leaves the nodes that there were as they were. -/
theorem Sound.node_copy_old (h : t.Sound) (hn : n < t.size) {a : NodeId} (ha : a < t.size) :
    (t.copy n).node a = t.node a := by
  have hcopies := h.copy hn
  have htag : (t.copy n).tag a = t.tag a := (extends_copyFrom t.size t n).tag a ha
  have hparent := hcopies.parent a ha
  have hchildren := hcopies.children a ha
  simp only [Tree.tag, kind, span, constant, parent, children, Tag.mk.injEq, true_and]
    at htag hparent hchildren
  obtain ⟨hkind, hspan, hconstant⟩ := htag
  cases hu : (t.copy n).node a
  cases ht : t.node a
  simp_all

/-- A copy of a subtree is the subtree under names that are counted on from the size of the tree, and
has no parent. -/
theorem Sound.holds_copy (h : t.Sound) (hn : n < t.size) : ∃ (z : List Frame) (b : Branch)
    (o : List Branch), b.id = n ∧ t.preorder n = b.ids ∧ t.Holds (plug z b :: o) ∧
      (t.copy n).Holds (b.rename (countOn t.size b.ids) :: plug z b :: o) ∧
        (t.copy n).size = t.size + b.ids.length := by
  obtain ⟨z, b, o, rfl, hb⟩ := h.exists_plug hn
  obtain ⟨hcopy, hsize⟩ := hb.copy
  rw [Branch.renumber_eq_rename (map_countOn hb.nodup_branch t.size)] at hcopy
  exact ⟨z, b, o, rfl, hb.preorder, hb, hcopy, hsize⟩

/-- Each node of a copy is what the node is that it was copied from, and its links lead to copies. -/
theorem Sound.node_copy (h : t.Sound) (hn : n < t.size) {a : NodeId} (ha : a ∈ t.preorder n) :
    (t.copy n).node (countOn t.size (t.preorder n) a) =
      ({ t.node a with parent := if a = n then none else t.parent a }).rename
        (countOn t.size (t.preorder n)) := by
  obtain ⟨z, b, o, rfl, hids, hb, hcopy, -⟩ := h.holds_copy hn
  rw [hids] at ha ⊢
  have hnodup := hb.nodup_branch
  rw [Branch.ids_eq, List.nodup_cons] at hnodup
  have hrecord : ∀ node, (a, node) ∈ b.records none →
      (t.copy b.id).node (countOn t.size b.ids a) = node.rename (countOn t.size b.ids) := by
    intro node hnode
    refine hcopy.node (countOn t.size b.ids a, _) ?_
    have hmap := Branch.records_rename (f := countOn t.size b.ids) b none
    rw [forestRecords, List.flatMap_cons, ← Option.map_none (countOn t.size b.ids), hmap]
    exact List.mem_append_left _ (List.mem_map.mpr ⟨_, hnode, rfl⟩)
  rw [Branch.ids_eq] at ha
  rcases List.mem_cons.mp ha with rfl | ha
  · rw [if_pos rfl, hb.node_eq]
    exact hrecord _ (by rw [Branch.records_eq]; exact List.mem_cons_self)
  · have hne : a ≠ b.id := fun he => hnodup.1 (he ▸ ha)
    rw [← Branch.map_lower] at ha
    obtain ⟨⟨m, node⟩, hr, rfl⟩ := List.mem_map.mp ha
    have hnode : t.node m = node := by
      refine hb.node (m, node) (List.mem_flatMap.mpr ⟨_, List.mem_cons_self, ?_⟩)
      refine (records_plug z b).mem_iff.mpr (List.mem_append_right _ ?_)
      rw [Branch.records_eq]
      exact List.mem_cons_of_mem _ hr
    rw [if_neg hne, parent, hnode]
    exact hrecord node (by rw [Branch.records_eq]; exact List.mem_cons_of_mem _ hr)

/-- Copies a subtree, where each child is put under its parent by a call that refuses a node which
has a parent. Gives the name of the copy. -/
def cloneFrom : Nat → Tree → NodeId → Except Refusal (NodeId × Tree)
  | 0, t, n => .ok (n, t)
  | budget + 1, t, n => do
    let source := t.node n
    let copy := t.size
    let u ← source.children.foldlM (fun t c => do
      let (child, t) ← cloneFrom budget t c
      t.appendChild copy child) (t.push (.alone source.kind source.span source.constant))
    return (copy, u)

/-- The copies of some children can be put behind those that are copied already. -/
theorem foldlM_cloneFrom {cs : List Branch} (budget : Nat)
    (ih : ∀ c ∈ cs, ∀ (t : Tree) (o : List Branch), t.Holds o →
      (∃ p, ∀ r ∈ c.records p, r ∈ forestRecords o) →
        cloneFrom budget t c.id = .ok (t.size, copyFrom budget t c.id))
    (hlength : ∀ c ∈ cs, c.ids.length ≤ budget) {tag : Tag} {done o : List Branch} {t : Tree}
    (h : t.Holds (.node tag done :: o))
    (hs : ∀ c ∈ cs, ∃ p, ∀ r ∈ c.records p, r ∈ forestRecords o) :
    (cs.map Branch.id).foldlM (fun t c => do
      let (child, t) ← cloneFrom budget t c
      t.appendChild tag.id child) t =
    .ok ((cs.map Branch.id).foldl
      (fun t c => (copyFrom budget t c).attachLast tag.id t.size) t) := by
  induction cs generalizing t done with
  | nil => rfl
  | cons c cs ihcs =>
    obtain ⟨p, hp⟩ := hs c List.mem_cons_self
    have hmem : ∀ r ∈ c.records p, r ∈ forestRecords (.node tag done :: o) := by
      intro r hr
      rw [forestRecords, List.flatMap_cons]
      exact List.mem_append_right _ (hp r hr)
    obtain ⟨hcopy, -⟩ := copyFrom_holds c budget (hlength c List.mem_cons_self) t _ h ⟨p, hmem⟩
    have hfree := hcopy.requireFree (b := c.renumber t.size) List.mem_cons_self
    have hnext := (hcopy.perm (List.Perm.swap _ _ _)).attachLast
    rw [Branch.id_renumber] at hfree hnext
    have hrest := ihcs (fun d hd => ih d (List.mem_cons_of_mem _ hd))
      (fun d hd => hlength d (List.mem_cons_of_mem _ hd)) hnext
      fun d hd => hs d (List.mem_cons_of_mem _ hd)
    rw [List.map_cons, List.foldlM_cons, List.foldl_cons, ← hrest,
      ih c List.mem_cons_self t _ h ⟨p, hmem⟩]
    simp only [bind, Except.bind, appendChild, hfree]
    rfl

theorem cloneFrom_eq (b : Branch) (budget : Nat) (hb : b.ids.length ≤ budget) (t : Tree)
    (o : List Branch) (h : t.Holds o) (hs : ∃ p, ∀ r ∈ b.records p, r ∈ forestRecords o) :
    cloneFrom budget t b.id = .ok (t.size, copyFrom budget t b.id) := by
  induction b using Branch.induct generalizing budget t o with
  | node tag cs ih =>
    rw [Branch.ids, List.length_cons] at hb
    obtain ⟨p, hp⟩ := hs
    cases budget with
    | zero => omega
    | succ budget =>
      obtain ⟨hnode, hchild⟩ := h.node_and_children hp
      have hlength : ∀ c ∈ cs, c.ids.length ≤ budget := fun c hc => by
        have := length_le_flatMap hc
        omega
      have hfold := foldlM_cloneFrom budget (fun c hc => ih c hc budget (hlength c hc)) hlength
        (h.push tag.kind tag.span tag.constant) hchild
      rw [Branch.id_node, cloneFrom, copyFrom, hnode]
      exact congrArg (fun x : Except Refusal Tree => x >>= fun u => pure (t.size, u)) hfold

/-- A later tree in which each node that there was is what it was, over the same children. -/
structure StaysIn (t u : Tree) : Prop extends t.Extends u where
  children : ∀ a < t.size, u.children a = t.children a

namespace StaysIn

theorem refl (t : Tree) : t.StaysIn t := ⟨.refl t, fun _ _ => rfl⟩

theorem trans (h : t.StaysIn u) (h' : u.StaysIn v) : t.StaysIn v :=
  ⟨h.toExtends.trans h'.toExtends, fun a ha =>
    (h'.children a (Nat.lt_of_lt_of_le ha h.size)).trans (h.children a ha)⟩

theorem push (h : t.StaysIn u) (node : Node) : t.StaysIn (u.push node) :=
  h.trans ⟨u.extends_push node, fun a ha => by
    rw [Tree.children, node_push, if_neg (Nat.ne_of_lt ha)]
    rfl⟩

/-- Nothing is lost where a node that was made since gets other children, whatever parents are
named. -/
theorem rewired (h : t.StaysIn u) {p : NodeId} (hp : t.size ≤ p) (cs : List NodeId)
    (owner : NodeId → Option NodeId) : t.StaysIn (u.rewired p cs owner) := by
  have hnode : ∀ a < t.size, (u.rewired p cs owner).node a =
      { u.node a with parent := owner a } := fun a ha => by
    rw [node_rewired, if_pos (Nat.lt_of_lt_of_le ha h.size),
      if_neg (Nat.ne_of_lt (Nat.lt_of_lt_of_le ha hp))]
    rfl
  refine ⟨⟨by simpa using h.size, fun a ha => ?_⟩, fun a ha => ?_⟩
  · rw [← h.tag a ha]
    simp only [Tree.tag, kind, span, constant, hnode a ha]
  · rw [← h.children a ha]
    simp only [Tree.children, hnode a ha]

theorem setConstant (h : t.StaysIn u) {n : NodeId} (hn : t.size ≤ n) (constant : Bool) :
    t.StaysIn (u.setConstant n constant) := by
  have hnode : ∀ a < t.size, (u.setConstant n constant).node a = u.node a := fun a ha => by
    rw [Tree.setConstant, node_update, if_neg]
    exact fun hna => absurd (hna.1 ▸ ha) (Nat.not_lt_of_le hn)
  refine ⟨⟨by simpa [Tree.setConstant] using h.size, fun a ha => ?_⟩, fun a ha => ?_⟩
  · rw [← h.tag a ha]
    simp only [Tree.tag, kind, span, Tree.constant, hnode a ha]
  · rw [← h.children a ha]
    simp only [Tree.children, hnode a ha]

theorem appendChild (h : t.StaysIn u) {p c : NodeId} (hp : t.size ≤ p)
    (hv : u.appendChild p c = .ok v) : t.StaysIn v := by
  rw [Tree.appendChild] at hv
  cases hfree : u.requireFree c with
  | error refusal =>
    rw [hfree] at hv
    cases hv
  | ok _ =>
    rw [hfree] at hv
    cases hv
    rw [attachLast, attach_eq_rewired]
    exact h.rewired hp _ _

theorem copy (h : t.StaysIn u) (hu : u.Sound) (hn : n < u.size) : t.StaysIn (u.copy n) :=
  h.trans ⟨extends_copyFrom _ _ _, (hu.copy hn).children⟩

theorem shapeFrom (h : t.StaysIn u) (ht : t.Sound) (budget : Nat) {a : NodeId} (ha : a < t.size) :
    u.shapeFrom budget a = t.shapeFrom budget a := by
  have htag : u.kind a = t.kind a ∧ u.constant a = t.constant a := by
    have htag := h.tag a ha
    simp only [Tree.tag, Tag.mk.injEq, true_and] at htag
    exact ⟨htag.1, htag.2.2⟩
  induction budget generalizing a with
  | zero => rw [Tree.shapeFrom, Tree.shapeFrom, htag.1, htag.2]
  | succ budget ih =>
    rw [Tree.shapeFrom, Tree.shapeFrom, htag.1, htag.2, h.children a ha]
    refine congrArg _ (List.map_congr_left fun c hc => ih (ht.child_lt hc) ?_)
    have htag := h.tag c (ht.child_lt hc)
    simp only [Tree.tag, Tag.mk.injEq, true_and] at htag
    exact ⟨htag.1, htag.2.2⟩

/-- What there was is written as before. -/
theorem shape (h : t.StaysIn u) (ht : t.Sound) {a : NodeId} (ha : a < t.size) :
    u.shape a = t.shape a := by
  obtain ⟨z, b, o, rfl, hb⟩ := ht.exists_plug ha
  have hlength := hb.ids_length_le
  have hsize := h.size
  rw [Tree.shape, h.shapeFrom ht _ ha, hb.shape, shapeFrom_shows b hb.shows _ (by omega)]

end StaysIn

end Tree

namespace Step

/-- After a step, done or refused, the nodes of an earlier tree are still what they were. -/
def Shields {α : Type} (t : Tree) (s : Step α) (w : Workspace) : Prop :=
  match s w with
  | .ok _ v => t.StaysIn v.tree
  | .error _ v => t.StaysIn v.tree

variable {α β : Type} {t : Tree} {w : Workspace} {s : Step α}

theorem shields_pure (h : t.StaysIn w.tree) (r : α) : Shields t (pure r) w := h

theorem Shields.bind {f : α → Step β} (hs : Shields t s w)
    (hf : ∀ r v, t.StaysIn v.tree → Shields t (f r) v) : Shields t (s >>= f) w := by
  rw [Shields] at hs ⊢
  cases hrun : s w with
  | ok r v =>
    rw [hrun] at hs
    rw [bind_of_ok hrun]
    exact hf r v hs
  | error refusal v =>
    rw [hrun] at hs
    rw [bind_of_error hrun]
    exact hs

theorem Shields.discard (hs : Shields t s w) : Shields t (discard s) w := by
  show Shields t (EStateM.map (Function.const α PUnit.unit) s) w
  rw [Shields] at hs ⊢
  rw [EStateM.map]
  cases hrun : s w with
  | ok r v =>
    rw [hrun] at hs
    exact hs
  | error refusal v =>
    rw [hrun] at hs
    exact hs

theorem shields_appendChild (h : t.StaysIn w.tree) {p : NodeId} (hp : t.size ≤ p) (c : NodeId) :
    Shields t (edit (·.appendChild p c)) w := by
  rw [Shields, edit]
  cases hu : w.tree.appendChild p c with
  | error refusal => exact h
  | ok u => exact h.appendChild hp hu

/-- Nodes are put under one that was made since. -/
theorem shields_appendAll (h : t.StaysIn w.tree) {p : NodeId} (hp : t.size ≤ p)
    (cs : List NodeId) :
    Shields t (forIn cs PUnit.unit fun c _ => do
      edit (·.appendChild p c)
      pure (ForInStep.yield PUnit.unit)) w := by
  induction cs generalizing w with
  | nil => exact shields_pure h _
  | cons c cs ih =>
    rw [List.forIn_cons]
    refine ((shields_appendChild h hp c).bind fun _ v hv => shields_pure hv _).bind fun r v hv => ?_
    cases r with
    | done _ => exact shields_pure hv _
    | yield _ => exact ih hv

theorem shields_makeOver (h : t.StaysIn w.tree) (kind : Kind) (span : Span) (cs : List NodeId) :
    Shields t (makeOver kind span cs) w := by
  have hmake : make kind span w =
      .ok w.tree.size { w with tree := w.tree.push (.alone kind span false) } := rfl
  rw [Shields, makeOver, bind_of_ok hmake]
  exact (shields_appendAll (h.push _) h.size cs).bind fun _ v hv => shields_pure hv _

end Step

namespace Action

open Hoist.Tree

/-- Whether an action works on an expression, and does not only change nodes. -/
def isWork : Action → Bool
  | exposeOnce _ | expose _ | relocate _ => true
  | _ => false

/-- The nodes that get other children or another flag by an action. -/
def edited (t : Tree) : Action → List NodeId
  | appendChild parent _ | prependChild parent _ => [parent]
  | insertBefore _ existing | insertAfter _ existing => (t.parent existing).toList
  | replace old _ => (t.parent old).toList
  | detach n => (t.parent n).toList
  | detachChildren n | setConstant n _ => [n]
  | make _ _ | makeOver _ _ _ | copy _ | exposeOnce _ | expose _ | relocate _ => []

/-- What changes make of a workspace, done or refused, that leave the nodes below a number the
children and the flags that they have. -/
inductive ChangesAbove (first : Nat) (w : Workspace) : Workspace → Prop
  | refl : ChangesAbove first w w
  | act {v : Workspace} (a : Action) : ChangesAbove first w v → a.Allowed v.tree →
      a.isWork = false → (∀ n ∈ a.edited v.tree, first ≤ n) → ChangesAbove first w (a.leaves v)

variable {t : Tree} {w v : Workspace} {a : Action} {p : NodeId} {cs : List NodeId}
  {owner : NodeId → Option NodeId}

theorem Rewires.mem_edited (h : a.Rewires t p cs owner) : p ∈ a.edited t := by
  cases h with
  | appendChild _ | prependChild _ => exact List.mem_singleton_self p
  | insertBefore hs _ | insertAfter hs _ | replace hs _ | detach hs =>
    rw [edited, hs.parent]
    exact List.mem_singleton_self p

theorem shields_move (hw : w.tree.Sound) (hkept : t.StaysIn w.tree)
    {f : Tree → Except Refusal Tree} (hmove : a.move? = some f)
    (ha : ∀ n ∈ a.edited w.tree, t.size ≤ n) : a.run.Shields t w := by
  rw [Step.Shields]
  rcases rewires_or_refused hw hmove with ⟨p, cs, owner, hrewires⟩ | ⟨refusal, hrefused⟩
  · rw [hrewires.run]
    exact hkept.rewired (ha p hrewires.mem_edited) cs owner
  · have hrun : a.run w = .error refusal w := by rw [run_of_move hmove, Step.edit, hrefused]
    rw [hrun]
    exact hkept

/-- A change of nodes that were made since leaves the others what they were. -/
theorem shields_run (hw : w.tree.Sound) (hkept : t.StaysIn w.tree) (hallowed : a.Allowed w.tree)
    (hwork : a.isWork = false) (ha : ∀ n ∈ a.edited w.tree, t.size ≤ n) : a.run.Shields t w := by
  cases a with
  | make kind span => exact Step.Shields.discard (s := Step.make kind span) (hkept.push _)
  | makeOver kind span cs => exact (Step.shields_makeOver hkept kind span cs).discard
  | appendChild | prependChild | insertBefore | insertAfter | replace | detach =>
    exact shields_move hw hkept rfl ha
  | detachChildren n =>
    have hn := ha n (List.mem_singleton_self n)
    show t.StaysIn (w.tree.detachChildren n)
    rw [detachChildren_eq_rewired]
    exact hkept.rewired hn _ _
  | copy n => exact hkept.copy hw (hallowed.1 n (List.mem_singleton_self n))
  | setConstant n constant => exact hkept.setConstant (ha n (List.mem_singleton_self n)) constant
  | exposeOnce | expose | relocate => cases hwork

theorem ChangesAbove.staysIn (h : ChangesAbove t.size w v) (hw : w.tree.Sound)
    (hkept : t.StaysIn w.tree) : v.tree.Sound ∧ t.StaysIn v.tree := by
  induction h with
  | refl => exact ⟨hw, hkept⟩
  | @act x a _ hallowed hwork ha ih =>
    refine ⟨(edits_leaves ih.1 hallowed).sound ih.1, ?_⟩
    have hrun := shields_run ih.1 ih.2 hallowed hwork ha
    rw [Step.Shields] at hrun
    rw [leaves]
    cases hx : a.run x with
    | ok r y =>
      rw [hx] at hrun
      exact hrun
    | error refusal y =>
      rw [hx] at hrun
      exact hrun

end Action

namespace Tree

variable {t : Tree} {n : NodeId}

@[simp] theorem countOn_head (first : Nat) (n : NodeId) (ns : List NodeId) :
    countOn first (n :: ns) n = first := by
  simp [countOn]

/-- The copy of a subtree is written like the subtree, and its nodes come one after the other. -/
theorem Sound.copy_alike (h : t.Sound) (hn : n < t.size) :
    (t.copy n).size = t.size + (t.preorder n).length ∧
      (t.copy n).preorder t.size = List.range' t.size (t.preorder n).length ∧
        (t.copy n).shape t.size = t.shape n := by
  obtain ⟨z, b, o, rfl, hids, hb, hcopy, hsize⟩ := h.holds_copy hn
  have hid : (b.rename (countOn t.size b.ids)).id = t.size := by
    rw [Branch.id_rename]
    conv_lhs => rw [Branch.ids_eq]
    exact countOn_head _ _ _
  have hpreorder := Holds.preorder (z := []) hcopy
  have hshape := Holds.shape (z := []) hcopy
  rw [hid, Branch.ids_rename, map_countOn hb.nodup_branch] at hpreorder
  rw [hid, Branch.shape_rename, ← hb.shape] at hshape
  rw [hids]
  exact ⟨hsize, hpreorder, hshape⟩

/-- A copied subtree is an exact copy, apart from all that there was. No call is refused, the copy is
named by the old size, and its nodes are the next ones, in the order of the nodes that they are copied
from. Each is what its original is, over the copies of the children, and the copy has no parent. All
nodes that there were are as before, and whatever is done to the new ones, the old ones are written as
they were. -/
theorem copy_exact (h : t.Sound) (hn : n < t.size) :
    cloneFrom t.size t n = .ok (t.size, t.copy n) ∧
    (t.copy n).size = t.size + (t.preorder n).length ∧
    (t.copy n).preorder t.size = List.range' t.size (t.preorder n).length ∧
    (∀ i a, (t.preorder n)[i]? = some a → (t.copy n).node (t.size + i) =
      ({ t.node a with parent := if a = n then none else t.parent a }).rename
        (countOn t.size (t.preorder n))) ∧
    (t.copy n).parent t.size = none ∧
    (t.copy n).sourceOf t.size = t.sourceOf n ∧
    (∀ a < t.size, (t.copy n).node a = t.node a) ∧
    ∀ w v, w.tree = t.copy n → Action.ChangesAbove t.size w v →
      ∀ a < t.size, v.tree.shape a = t.shape a ∧ v.tree.sourceOf a = t.sourceOf a := by
  obtain ⟨hsize, hpreorder, hshape⟩ := h.copy_alike hn
  refine ⟨?_, hsize, hpreorder, fun i a hi => ?_, (h.copy hn).free, ?_, fun a => h.node_copy_old hn,
    fun w v hw hv a ha => ?_⟩
  · obtain ⟨z, b, o, rfl, hb⟩ := h.exists_plug hn
    have hlength := hb.ids_length_le
    refine cloneFrom_eq b t.size (by omega) t _ hb ⟨holder z, fun r hr => ?_⟩
    rw [forestRecords, List.flatMap_cons]
    exact List.mem_append_left _ ((records_plug z b).mem_iff.mpr (List.mem_append_right _ hr))
  · have hnodup : (t.preorder n).Nodup := by
      obtain ⟨z, b, o, rfl, hb⟩ := h.exists_plug hn
      rw [hb.preorder]
      exact hb.nodup_branch
    obtain ⟨hlt, rfl⟩ := List.getElem?_eq_some_iff.mp hi
    rw [← h.node_copy hn (List.getElem_mem hlt), countOn, hnodup.idxOf_getElem]
  · rw [sourceOf, sourceOf, hshape]
  · have hkept := (StaysIn.refl t).copy h hn
    have hcopied := (h.copy hn).edits.sound h
    rw [← hw] at hkept hcopied
    have hshape := (hv.staysIn hcopied hkept).2.shape h ha
    exact ⟨hshape, by rw [sourceOf, sourceOf, hshape]⟩

/-- A call of a name, and another name, neither of them in the script. -/
def callAndName : Tree :=
  ⟨#[.alone .script .nowhere false, ⟨.name "f", some 2, [], .nowhere, false⟩,
    ⟨.call, none, [1], .nowhere, false⟩, .alone (.name "g") .nowhere false]⟩

theorem sound_callAndName : callAndName.Sound := by
  have hname : Session ((Action.make (.name "f") .nowhere).leaves
      (.ofTree .empty defaultTempPrefix)) :=
    .act _ (.empty rfl) ⟨by simp [Action.nodes], by simp [Action.placing]⟩
  have hcall := Session.act (.makeOver .call .nowhere [1]) hname
    ⟨by decide, by simp [Action.placing]⟩
  have hother := Session.act (.make (.name "g") .nowhere) hcall
    ⟨by simp [Action.nodes], by simp [Action.placing]⟩
  exact hother.sound

/-- A call is copied, and the copy becomes a call of another name. -/
theorem copy_exact_of_call : callAndName.Sound ∧ 2 < callAndName.size ∧
    cloneFrom 4 callAndName 2 = .ok (4, callAndName.copy 2) ∧
    (callAndName.copy 2).preorder 4 = [4, 5] ∧
    ∃ v, Action.ChangesAbove 4 (.ofTree (callAndName.copy 2) defaultTempPrefix) v ∧
      v.tree.children 4 = [3] ∧ v.tree.shape 2 = callAndName.shape 2 := by
  have hn : 2 < callAndName.size := by decide
  obtain ⟨hclone, -, hpreorder, -, -, -, -, hkept⟩ := copy_exact sound_callAndName hn
  have hstart : Action.ChangesAbove 4 (.ofTree (callAndName.copy 2) defaultTempPrefix) _ := .refl
  have hchanged := hstart.act (.replace 5 3) ⟨by decide, by decide⟩ rfl (by decide)
  exact ⟨sound_callAndName, hn, hclone, hpreorder, _, hchanged, by decide,
    (hkept _ _ rfl hchanged 2 hn).1⟩

end Tree

end Hoist
