import Hoist.Proofs.Branch
import Hoist.TreeEdit

namespace Hoist

/-- The nodes of branches without parents as a tree stores them. -/
def forestRecords (o : List Branch) : List (NodeId × Node) := o.flatMap (Branch.records none)

theorem map_forestRecords (o : List Branch) :
    (forestRecords o).map Prod.fst = o.flatMap Branch.ids := by
  rw [forestRecords, List.map_flatMap]
  exact List.flatMap_congr fun b _ => Branch.map_records none b

/-- The node that holds a branch, the branch itself, and the rest. -/
theorem records_plug_cons (f : Frame) (z : List Frame) (b : Branch) :
    ((plug (f :: z) b).records none).Perm
      ((f.tag.id, f.stored (holder z) b.id) :: (b.id, b.stored (some f.tag.id)) ::
        (f.beside ++ frameRecords z f.tag.id ++ b.lower)) := by
  refine (records_plug (f :: z) b).trans ?_
  rw [frameRecords, Branch.records_eq, holder_cons, List.cons_append, List.cons_append]
  exact List.Perm.cons _ List.perm_middle

namespace Tree

/-- A tree stores nodes, no two under the same name. -/
structure Stores (t : Tree) (rs : List (NodeId × Node)) : Prop where
  nodup : (rs.map Prod.fst).Nodup
  lt : ∀ r ∈ rs, r.1 < t.size
  node : ∀ r ∈ rs, t.node r.1 = r.2

/-- A tree stores branches, no two of which share a node, each without a parent. -/
def Holds (t : Tree) (o : List Branch) : Prop := t.Stores (forestRecords o)

variable {t u : Tree} {rs ss : List (NodeId × Node)}

theorem Stores.perm (h : t.Stores rs) (hp : rs.Perm ss) : t.Stores ss where
  nodup := (hp.map Prod.fst).nodup_iff.mp h.nodup
  lt r hr := h.lt r (hp.mem_iff.mpr hr)
  node r hr := h.node r (hp.mem_iff.mpr hr)

/-- A change to some nodes leaves the others as they are. -/
theorem Stores.change {before : List (NodeId × Node)} (h : t.Stores (before ++ rs))
    (after : List (NodeId × Node))
    (hn : after.map Prod.fst = before.map Prod.fst) (hs : u.size = t.size)
    (hu : ∀ m, m ∉ before.map Prod.fst → u.node m = t.node m)
    (ha : ∀ r ∈ after, u.node r.1 = r.2) : u.Stores (after ++ rs) where
  nodup := by
    have hd := h.nodup
    rw [List.map_append] at hd ⊢
    rwa [hn]
  lt r hr := by
    rw [hs]
    rcases List.mem_append.mp hr with hr | hr
    · have hm : r.1 ∈ before.map Prod.fst := hn ▸ List.mem_map_of_mem hr
      obtain ⟨q, hq, he⟩ := List.mem_map.mp hm
      exact he ▸ h.lt q (List.mem_append_left _ hq)
    · exact h.lt r (List.mem_append_right _ hr)
  node r hr := by
    rcases List.mem_append.mp hr with hr | hr
    · exact ha r hr
    · have hd := h.nodup
      rw [List.map_append] at hd
      have hm := (List.nodup_append.mp hd).2.2
      rw [hu r.1 fun hb => hm r.1 hb r.1 (List.mem_map_of_mem hr) rfl]
      exact h.node r (List.mem_append_right _ hr)

theorem Stores.right (h : t.Stores (rs ++ ss)) : t.Stores ss where
  nodup := by
    have hd := h.nodup
    rw [List.map_append] at hd
    exact (List.nodup_append.mp hd).2.1
  lt r hr := h.lt r (List.mem_append_right _ hr)
  node r hr := h.node r (List.mem_append_right _ hr)

theorem Holds.perm {o cs : List Branch} (h : t.Holds o) (hp : o.Perm cs) : t.Holds cs :=
  Stores.perm h (hp.flatMap_right _)

theorem Holds.tail {b : Branch} {o : List Branch} (h : t.Holds (b :: o)) : t.Holds o := by
  rw [Holds, forestRecords, List.flatMap_cons] at h
  exact h.right

theorem node_setParent (t : Tree) (n m : NodeId) (p : Option NodeId) :
    (t.setParent n p).node m =
      if n = m ∧ m < t.size then { t.node m with parent := p } else t.node m :=
  node_update t n m _

theorem node_mapChildren (t : Tree) (n m : NodeId) (f : List NodeId → List NodeId) :
    (t.mapChildren n f).node m =
      if n = m ∧ m < t.size then { t.node m with children := f (t.node m).children }
      else t.node m :=
  node_update t n m _

@[simp] theorem size_setParent (t : Tree) (n : NodeId) (p : Option NodeId) :
    (t.setParent n p).size = t.size := size_update t n _

@[simp] theorem size_mapChildren (t : Tree) (n : NodeId) (f : List NodeId → List NodeId) :
    (t.mapChildren n f).size = t.size := size_update t n _

/-- The place of a child among others of other names. -/
theorem idxOf?_append_cons {xs ys : List NodeId} {x : NodeId} (h : x ∉ xs) :
    (xs ++ x :: ys).idxOf? x = some xs.length := by
  induction xs with
  | nil => simp [List.idxOf?_cons]
  | cons y ys ih =>
    simp only [List.mem_cons, not_or] at h
    have hne : (y == x) = false := by simpa using Ne.symm h.1
    simp [List.idxOf?_cons, hne, ih h.2]

/-- The place of a node that another stores as its child is found. -/
theorem placeOf_of_node {f : Frame} {p : Option NodeId} {n : NodeId}
    (hn : n ∉ f.left.map Branch.id) (hf : t.node f.tag.id = f.stored p n)
    (hp : (t.node n).parent = some f.tag.id) : t.placeOf n = .ok (f.tag.id, f.left.length) := by
  have hindex : t.childIndex f.tag.id n = some f.left.length := by
    rw [childIndex, children, hf]
    exact (idxOf?_append_cons hn).trans (by rw [List.length_map])
  have hparent : t.parent n = some f.tag.id := hp
  rw [placeOf, hparent]
  simp only [hindex]

theorem requireFree_of_node {n : NodeId} (h : (t.node n).parent = none) :
    t.requireFree n = .ok () := by
  have hp : t.parent n = none := h
  rw [requireFree, hp]

/-- The node of a branch inside frames. -/
theorem Holds.node_eq {z : List Frame} {b : Branch} {o : List Branch}
    (h : t.Holds (plug z b :: o)) : t.node b.id = b.stored (holder z) := by
  have hs : t.Stores ((plug z b).records none ++ forestRecords o) := h
  refine (hs.perm ((records_plug z b).append_right _)).node (b.id, b.stored (holder z)) ?_
  rw [Branch.records_eq]
  simp

/-- The node of the innermost frame around a branch. -/
theorem Holds.node_frame {f : Frame} {z : List Frame} {b : Branch} {o : List Branch}
    (h : t.Holds (plug (f :: z) b :: o)) : t.node f.tag.id = f.stored (holder z) b.id := by
  have hn : t.node (f.fill b).id = (f.fill b).stored (holder z) := Holds.node_eq h
  rw [Frame.id_fill] at hn
  rw [hn]
  simp [Branch.stored, Frame.stored, Frame.fill, Branch.kind, Branch.span]

/-- A branch that stands alone has no parent. -/
theorem Holds.node_of_mem {b : Branch} {o : List Branch} (h : t.Holds o) (hb : b ∈ o) :
    t.node b.id = b.stored none := by
  refine Stores.node h (b.id, _) (List.mem_flatMap.mpr ⟨b, hb, ?_⟩)
  rw [Branch.records_eq]
  exact List.mem_cons_self

/-- The name of a branch is not among those to its left. -/
theorem id_notMem_left {f : Frame} {z : List Frame} {b : Branch} {o : List Branch}
    (h : t.Holds (plug (f :: z) b :: o)) : b.id ∉ f.left.map Branch.id := by
  intro hm
  obtain ⟨c, hc, he⟩ := List.mem_map.mp hm
  have hs : t.Stores ((plug (f :: z) b).records none ++ forestRecords o) := h
  have hd := (hs.perm ((records_plug_cons f z b).append_right _)).nodup
  simp only [List.map_append, List.map_cons, List.cons_append, List.nodup_cons, List.mem_cons,
    List.mem_append, not_or, Frame.map_beside] at hd
  refine hd.2.1.1.1.1 (List.mem_flatMap.mpr ⟨c, List.mem_append_left _ hc, ?_⟩)
  exact he ▸ Branch.id_mem_ids c

theorem Holds.placeOf {f : Frame} {z : List Frame} {b : Branch} {o : List Branch}
    (h : t.Holds (plug (f :: z) b :: o)) : t.placeOf b.id = .ok (f.tag.id, f.left.length) :=
  placeOf_of_node (id_notMem_left h) h.node_frame (by rw [h.node_eq]; rfl)

theorem Holds.requireFree {b : Branch} {o : List Branch} (h : t.Holds o) (hb : b ∈ o) :
    t.requireFree b.id = .ok () :=
  requireFree_of_node (by rw [h.node_of_mem hb]; rfl)

/-- No two nodes of branches have the same name. -/
theorem Holds.nodup {o : List Branch} (h : t.Holds o) : (o.flatMap Branch.ids).Nodup := by
  rw [← map_forestRecords]
  exact Stores.nodup h

theorem Holds.nodup_branch {z : List Frame} {b : Branch} {o : List Branch}
    (h : t.Holds (plug z b :: o)) : b.ids.Nodup := by
  have hn := h.nodup
  rw [List.flatMap_cons] at hn
  exact (((ids_plug z b).nodup_iff.mp (List.nodup_append.mp hn).1).of_append_right)

end Tree

end Hoist
