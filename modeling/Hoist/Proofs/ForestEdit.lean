import Hoist.Proofs.Forest

namespace Hoist

theorem insertIdx_append_cons (xs ys : List NodeId) (x : NodeId) :
    (xs ++ ys).insertIdx xs.length x = xs ++ x :: ys := by
  induction xs with
  | nil => rfl
  | cons y xs ih => simp [ih]

theorem eraseIdx_append_cons (xs ys : List NodeId) (x : NodeId) :
    (xs ++ x :: ys).eraseIdx xs.length = xs ++ ys := by
  rw [List.eraseIdx_append_of_length_le (Nat.le_refl _)]
  simp

namespace Tree

variable {t u : Tree}

/-- A branch inside frames and one besides, with the three nodes in front that an exchange of the two
changes. -/
theorem forestRecords_pair (f : Frame) (z : List Frame) (b n : Branch) (o : List Branch) :
    (forestRecords (plug (f :: z) b :: n :: o)).Perm
      ([(f.tag.id, f.stored (holder z) b.id), (b.id, b.stored (some f.tag.id)),
        (n.id, n.stored none)] ++ (f.beside ++ frameRecords z f.tag.id ++ b.lower ++ n.lower ++
        forestRecords o)) := by
  have h : forestRecords (plug (f :: z) b :: n :: o) =
      (plug (f :: z) b).records none ++ (n.records none ++ forestRecords o) := rfl
  rw [h]
  refine ((records_plug_cons f z b).append_right _).trans ?_
  rw [Branch.records_eq none n, List.perm_iff_count]
  intro r
  simp only [List.count_append, List.count_cons, List.count_nil]
  omega

/-- Replacing puts a branch in the place of another, which then stands alone. -/
theorem Holds.replace {f : Frame} {z : List Frame} {b n : Branch} {o : List Branch}
    (h : t.Holds (plug (f :: z) b :: n :: o)) :
    ∃ u, t.replace b.id n.id = .ok u ∧ u.size = t.size ∧ u.Holds (plug (f :: z) n :: b :: o) := by
  have hs := Stores.perm h (forestRecords_pair f z b n o)
  have hf := hs.node (f.tag.id, f.stored (holder z) b.id) (by simp)
  have hb := hs.node (b.id, b.stored (some f.tag.id)) (by simp)
  have hn := hs.node (n.id, n.stored none) (by simp)
  have hlt := hs.lt
  have hd := hs.nodup
  simp only [List.cons_append, List.map_cons, List.nodup_cons, List.mem_cons, not_or,
    forall_eq_or_imp] at hd hlt
  obtain ⟨⟨hfb, hfn, -⟩, ⟨hbn, -⟩, -⟩ := hd
  let u := ((t.mapChildren f.tag.id fun cs => cs.set f.left.length n.id).setParent n.id
    (some f.tag.id)).setParent b.id none
  have hu : ∀ m, u.node m = if b.id = m then { t.node m with parent := none } else
      if n.id = m then { t.node m with parent := some f.tag.id } else
      if f.tag.id = m then
        { t.node m with children := (t.node m).children.set f.left.length n.id } else t.node m := by
    intro m
    simp only [u, node_setParent, node_mapChildren, size_setParent, size_mapChildren]
    grind
  refine ⟨u, ?_, by simp [u], ?_⟩
  · rw [Tree.replace, h.requireFree (b := n) (by simp), h.placeOf]
    rfl
  · refine Stores.perm (hs.change [(f.tag.id, f.stored (holder z) n.id),
      (b.id, b.stored none), (n.id, n.stored (some f.tag.id))] rfl (by simp [u]) ?_ ?_) ?_
    · intro m hm
      simp only [List.map_cons, List.map_nil, List.mem_cons, not_or] at hm
      rw [hu, if_neg (Ne.symm hm.2.1), if_neg (Ne.symm hm.2.2.1), if_neg (Ne.symm hm.1)]
    · simp only [List.mem_cons, forall_eq_or_imp, hu, hf, hb, hn]
      simp [Frame.stored, Branch.stored, hbn, Ne.symm hfb, Ne.symm hfn]
    · refine .trans ?_ (forestRecords_pair f z n b o).symm
      rw [List.perm_iff_count]
      intro r
      simp only [List.count_append, List.count_cons, List.count_nil]
      omega

/-- A node without a branch in its place and that branch besides, with the two nodes in front that
putting it there changes. -/
theorem forestRecords_close (f : Frame) (z : List Frame) (n : Branch) (o : List Branch) :
    (forestRecords (plug z f.close :: n :: o)).Perm
      ([(f.tag.id, f.close.stored (holder z)), (n.id, n.stored none)] ++
        (f.beside ++ frameRecords z f.tag.id ++ n.lower ++ forestRecords o)) := by
  have h : forestRecords (plug z f.close :: n :: o) =
      (plug z f.close).records none ++ (n.records none ++ forestRecords o) := rfl
  rw [h]
  refine ((records_plug z f.close).append_right _).trans ?_
  have hl : f.close.lower = f.beside := rfl
  rw [Branch.records_eq none n, Branch.records_eq (holder z) f.close, hl, Frame.id_close,
    List.perm_iff_count]
  intro r
  simp only [List.count_append, List.count_cons, List.count_nil]
  omega

/-- The same with the branch in its place. -/
theorem forestRecords_fill (f : Frame) (z : List Frame) (n : Branch) (o : List Branch) :
    (forestRecords (plug (f :: z) n :: o)).Perm
      ([(f.tag.id, f.stored (holder z) n.id), (n.id, n.stored (some f.tag.id))] ++
        (f.beside ++ frameRecords z f.tag.id ++ n.lower ++ forestRecords o)) :=
  (records_plug_cons f z n).append_right _

/-- Attaching puts a branch that stands alone into a node. -/
theorem Holds.attach {f : Frame} {z : List Frame} {n : Branch} {o : List Branch}
    (h : t.Holds (plug z f.close :: n :: o)) :
    (t.attach f.tag.id f.left.length n.id).Holds (plug (f :: z) n :: o) := by
  have hs := Stores.perm h (forestRecords_close f z n o)
  have hf := hs.node (f.tag.id, f.close.stored (holder z)) (by simp)
  have hn := hs.node (n.id, n.stored none) (by simp)
  have hlt := hs.lt
  have hd := hs.nodup
  simp only [List.cons_append, List.map_cons, List.nodup_cons, List.mem_cons, not_or,
    forall_eq_or_imp] at hd hlt
  obtain ⟨⟨hfn, -⟩, -⟩ := hd
  have hu : ∀ m, (t.attach f.tag.id f.left.length n.id).node m =
      if n.id = m then { t.node m with parent := some f.tag.id } else
      if f.tag.id = m then
        { t.node m with children := (t.node m).children.insertIdx f.left.length n.id }
      else t.node m := by
    intro m
    simp only [Tree.attach, node_setParent, node_mapChildren, size_setParent]
    grind
  refine Stores.perm (hs.change [(f.tag.id, f.stored (holder z) n.id),
    (n.id, n.stored (some f.tag.id))] rfl (by simp [Tree.attach]) ?_ ?_)
    (forestRecords_fill f z n o).symm
  · intro m hm
    simp only [List.map_cons, List.map_nil, List.mem_cons, not_or] at hm
    rw [hu, if_neg (Ne.symm hm.2.1), if_neg (Ne.symm hm.1)]
  · simp only [List.mem_cons, forall_eq_or_imp, hu, hf, hn]
    have hi := insertIdx_append_cons (f.left.map Branch.id) (f.right.map Branch.id) n.id
    rw [List.length_map] at hi
    simp [Frame.stored, Branch.stored, Frame.close, Ne.symm hfn, hi, Branch.kind, Branch.span]

/-- Detaching takes a branch out of a node. -/
theorem Holds.detach {f : Frame} {z : List Frame} {n : Branch} {o : List Branch}
    (h : t.Holds (plug (f :: z) n :: o)) :
    ∃ u, t.detach n.id = .ok u ∧ u.size = t.size ∧ u.Holds (plug z f.close :: n :: o) := by
  have hs := Stores.perm h (forestRecords_fill f z n o)
  have hf := hs.node (f.tag.id, f.stored (holder z) n.id) (by simp)
  have hn := hs.node (n.id, n.stored (some f.tag.id)) (by simp)
  have hlt := hs.lt
  have hd := hs.nodup
  simp only [List.cons_append, List.map_cons, List.nodup_cons, List.mem_cons, not_or,
    forall_eq_or_imp] at hd hlt
  obtain ⟨⟨hfn, -⟩, -⟩ := hd
  let u := (t.mapChildren f.tag.id fun cs => cs.eraseIdx f.left.length).setParent n.id none
  have hu : ∀ m, u.node m = if n.id = m then { t.node m with parent := none } else
      if f.tag.id = m then
        { t.node m with children := (t.node m).children.eraseIdx f.left.length }
      else t.node m := by
    intro m
    simp only [u, node_setParent, node_mapChildren, size_mapChildren]
    grind
  refine ⟨u, ?_, by simp [u], ?_⟩
  · rw [Tree.detach, h.placeOf]
    rfl
  · refine Stores.perm (hs.change [(f.tag.id, f.close.stored (holder z)),
      (n.id, n.stored none)] rfl (by simp [u]) ?_ ?_) (forestRecords_close f z n o).symm
    · intro m hm
      simp only [List.map_cons, List.map_nil, List.mem_cons, not_or] at hm
      rw [hu, if_neg (Ne.symm hm.2.1), if_neg (Ne.symm hm.1)]
    · simp only [List.mem_cons, forall_eq_or_imp, hu, hf, hn]
      have hi := eraseIdx_append_cons (f.left.map Branch.id) (f.right.map Branch.id) n.id
      rw [List.length_map] at hi
      simp [Frame.stored, Branch.stored, Frame.close, Ne.symm hfn, hi, Branch.kind, Branch.span]

/-- Inserting puts a branch that stands alone right before another. -/
theorem Holds.insertBefore {f : Frame} {z : List Frame} {b n : Branch} {o : List Branch}
    (h : t.Holds (plug (f :: z) b :: n :: o)) :
    ∃ u, t.insertBefore n.id b.id = .ok u ∧ u.size = t.size ∧
      u.Holds (plug (⟨f.tag, f.left, b :: f.right⟩ :: z) n :: o) := by
  refine ⟨t.attach f.tag.id f.left.length n.id, ?_, by simp [Tree.attach], ?_⟩
  · rw [Tree.insertBefore, h.placeOf]
    show (do t.requireFree n.id; return t.attach f.tag.id f.left.length n.id) = _
    rw [h.requireFree (b := n) (by simp)]
    rfl
  · exact Holds.attach (f := ⟨f.tag, f.left, b :: f.right⟩) h

/-- Inserting puts a branch that stands alone right behind another. -/
theorem Holds.insertAfter {f : Frame} {z : List Frame} {b n : Branch} {o : List Branch}
    (h : t.Holds (plug (f :: z) b :: n :: o)) :
    ∃ u, t.insertAfter n.id b.id = .ok u ∧ u.size = t.size ∧
      u.Holds (plug (⟨f.tag, f.left ++ [b], f.right⟩ :: z) n :: o) := by
  refine ⟨t.attach f.tag.id (f.left.length + 1) n.id, ?_, by simp [Tree.attach], ?_⟩
  · rw [Tree.insertAfter, h.placeOf]
    show (do t.requireFree n.id; return t.attach f.tag.id (f.left.length + 1) n.id) = _
    rw [h.requireFree (b := n) (by simp)]
    rfl
  · have hc : f.fill b = Frame.close ⟨f.tag, f.left ++ [b], f.right⟩ := by
      simp [Frame.fill, Frame.close]
    rw [plug_cons, hc] at h
    simpa using Holds.attach h

theorem Holds.attachLast {tag : Tag} {cs : List Branch} {c : Branch} {o : List Branch}
    (h : t.Holds (.node tag cs :: c :: o)) :
    (t.attachLast tag.id c.id).Holds (.node tag (cs ++ [c]) :: o) := by
  have hlen : (t.children tag.id).length = cs.length := by
    have hn := h.node_of_mem (b := .node tag cs) List.mem_cons_self
    rw [Branch.id_node] at hn
    rw [children, hn]
    simp [Branch.stored]
  have hc : Branch.node tag cs = plug [] (Frame.close ⟨tag, cs, []⟩) := by
    simp [Frame.close]
  rw [Tree.attachLast, hlen]
  rw [hc] at h
  exact h.attach

/-- Appending puts a branch that stands alone behind the children of another. -/
theorem Holds.appendChild {tag : Tag} {cs : List Branch} {c : Branch} {o : List Branch}
    (h : t.Holds (.node tag cs :: c :: o)) :
    ∃ u, t.appendChild tag.id c.id = .ok u ∧ u.size = t.size ∧
      u.Holds (.node tag (cs ++ [c]) :: o) := by
  refine ⟨t.attachLast tag.id c.id, ?_, by simp [Tree.attachLast, Tree.attach], h.attachLast⟩
  rw [Tree.appendChild, h.requireFree (b := c) (by simp)]
  rfl

/-- Prepending puts a branch that stands alone before the children of another. -/
theorem Holds.prependChild {tag : Tag} {cs : List Branch} {c : Branch} {o : List Branch}
    (h : t.Holds (.node tag cs :: c :: o)) :
    ∃ u, t.prependChild tag.id c.id = .ok u ∧ u.size = t.size ∧
      u.Holds (.node tag (c :: cs) :: o) := by
  refine ⟨t.attach tag.id 0 c.id, ?_, by simp [Tree.attach], ?_⟩
  · rw [Tree.prependChild, h.requireFree (b := c) (by simp)]
    rfl
  · have hc : t.Holds (plug [] (Frame.close ⟨tag, [], cs⟩) :: c :: o) := h
    exact hc.attach

/-- A new node stands alone. -/
theorem Holds.push {o : List Branch} (h : t.Holds o) (kind : Kind) (span : Span)
    (constant : Bool) :
    (t.push (.alone kind span constant)).Holds (.node ⟨t.size, kind, span, constant⟩ [] :: o) := by
  have hr : forestRecords (.node ⟨t.size, kind, span, constant⟩ [] :: o) =
      (t.size, .alone kind span constant) :: forestRecords o := by
    simp [forestRecords, Branch.records, Branch.stored, Node.alone, Branch.kind, Branch.span]
  have hlt := Stores.lt h
  rw [Holds, hr]
  refine ⟨?_, ?_, ?_⟩
  · rw [List.map_cons, List.nodup_cons]
    refine ⟨fun hm => ?_, Stores.nodup h⟩
    obtain ⟨r, hr, he⟩ := List.mem_map.mp hm
    exact absurd he (Nat.ne_of_lt (hlt r hr))
  · intro r hr
    rw [size_push]
    rcases List.mem_cons.mp hr with rfl | hr
    · exact Nat.lt_succ_self _
    · exact Nat.lt_succ_of_lt (hlt r hr)
  · intro r hr
    rw [node_push]
    rcases List.mem_cons.mp hr with rfl | hr
    · rw [if_pos rfl]
    · rw [if_neg (Nat.ne_of_lt (hlt r hr))]
      exact Stores.node h r hr

/-- Setting the parents of several nodes changes nothing else. -/
theorem node_foldl_setParent (p : Option NodeId) (cs : List NodeId) (t : Tree) (m : NodeId) :
    (cs.foldl (fun t c => t.setParent c p) t).node m =
      if m ∈ cs ∧ m < t.size then { t.node m with parent := p } else t.node m := by
  induction cs generalizing t with
  | nil => simp
  | cons c cs ih =>
    rw [List.foldl_cons, ih, node_setParent, size_setParent]
    grind

@[simp] theorem size_foldl_setParent (p : Option NodeId) (cs : List NodeId) (t : Tree) :
    (cs.foldl (fun t c => t.setParent c p) t).size = t.size := by
  induction cs generalizing t with
  | nil => rfl
  | cons c cs ih => rw [List.foldl_cons, ih, size_setParent]

/-- The nodes of children under a parent, with the children themselves in front. -/
theorem flatMap_records_perm (p : Option NodeId) (cs : List Branch) :
    (cs.flatMap (Branch.records p)).Perm
      (cs.map (fun c => (c.id, c.stored p)) ++ cs.flatMap Branch.lower) := by
  induction cs with
  | nil => exact .refl _
  | cons c cs ih =>
    rw [List.flatMap_cons, List.map_cons, List.flatMap_cons, Branch.records_eq, List.cons_append,
      List.cons_append]
    refine .cons _ ((ih.append_left _).trans ?_)
    rw [← List.append_assoc, ← List.append_assoc]
    exact List.perm_append_comm.append_right _

/-- A node with its children, with the nodes in front that taking them apart changes. -/
theorem forestRecords_over (z : List Frame) (tag : Tag) (cs o : List Branch) :
    (forestRecords (plug z (.node tag cs) :: o)).Perm
      (((tag.id, Branch.stored (holder z) (.node tag cs)) ::
        cs.map fun c => (c.id, c.stored (some tag.id))) ++
        (frameRecords z tag.id ++ cs.flatMap Branch.lower ++ forestRecords o)) := by
  have hr : forestRecords (plug z (.node tag cs) :: o) =
    (plug z (.node tag cs)).records none ++ forestRecords o := rfl
  rw [hr]
  refine ((records_plug z _).append_right _).trans ?_
  rw [Branch.records_eq]
  have hp := flatMap_records_perm (some tag.id) cs
  rw [List.perm_iff_count] at hp ⊢
  intro r
  have := hp r
  simp only [List.count_append, List.count_cons, Branch.lower, Branch.children_node,
    Branch.id_node] at this ⊢
  omega

/-- The same with the children apart. -/
theorem forestRecords_apart (z : List Frame) (tag : Tag) (cs o : List Branch) :
    (forestRecords (plug z (.node tag []) :: (cs ++ o))).Perm
      (((tag.id, Branch.stored (holder z) (.node tag [])) ::
        cs.map fun c => (c.id, c.stored none)) ++
        (frameRecords z tag.id ++ cs.flatMap Branch.lower ++ forestRecords o)) := by
  have hr : forestRecords (plug z (.node tag []) :: (cs ++ o)) =
    (plug z (.node tag [])).records none ++ (cs.flatMap (Branch.records none) ++
      forestRecords o) := by simp [forestRecords]
  rw [hr]
  refine ((records_plug z _).append_right _).trans ?_
  rw [Branch.records_eq]
  have hp := flatMap_records_perm none cs
  rw [List.perm_iff_count] at hp ⊢
  intro r
  have := hp r
  simp only [List.count_append, List.count_cons, Branch.lower, Branch.children_node,
    Branch.id_node, List.flatMap_nil, List.count_nil] at this ⊢
  omega

/-- Detaching the children of a node leaves each of them alone. -/
theorem Holds.detachChildren {tag : Tag} {cs : List Branch} {z : List Frame} {o : List Branch}
    (h : t.Holds (plug z (.node tag cs) :: o)) :
    (t.detachChildren tag.id).Holds (plug z (.node tag []) :: (cs ++ o)) ∧
      (t.detachChildren tag.id).size = t.size := by
  have hnode := h.node_eq
  rw [Branch.id_node] at hnode
  have hcs : t.children tag.id = cs.map Branch.id := by rw [children, hnode]; rfl
  have hs := Stores.perm h (forestRecords_over z tag cs o)
  have hsize : (t.detachChildren tag.id).size = t.size := by
    rw [Tree.detachChildren, size_foldl_setParent, size_mapChildren]
  have hd := hs.nodup
  simp only [List.cons_append, List.map_cons, List.nodup_cons, List.map_append, List.map_map,
    List.mem_append, not_or] at hd
  have hself : tag.id ∉ cs.map Branch.id := hd.1.1
  have hu : ∀ m, (t.detachChildren tag.id).node m =
      if m ∈ cs.map Branch.id ∧ m < t.size then { t.node m with parent := none } else
      if tag.id = m ∧ m < t.size then { t.node m with children := [] } else t.node m := by
    intro m
    rw [Tree.detachChildren, node_foldl_setParent, node_mapChildren, size_mapChildren, hcs]
    grind
  refine ⟨Stores.perm (hs.change ((tag.id, Branch.stored (holder z) (.node tag [])) ::
    cs.map fun c => (c.id, c.stored none)) ?_ hsize ?_ ?_) (forestRecords_apart z tag cs o).symm, hsize⟩
  · simp
  · intro m hm
    simp only [List.map_cons, List.map_map, List.mem_cons, not_or] at hm
    have hm' : m ∉ cs.map Branch.id := hm.2
    rw [hu, if_neg (fun hc => hm' hc.1), if_neg (fun hc => hm.1 hc.1.symm)]
  · intro r hr
    rcases List.mem_cons.mp hr with rfl | hr
    · have hlt := hs.lt (tag.id, Branch.stored (holder z) (.node tag cs)) (by simp)
      rw [hu, if_neg (fun hc => hself hc.1), if_pos ⟨rfl, hlt⟩, hnode]
      rfl
    · obtain ⟨c, hc, rfl⟩ := List.mem_map.mp hr
      have hmem : (c.id, c.stored (some tag.id)) ∈
          ((tag.id, Branch.stored (holder z) (.node tag cs)) ::
            cs.map fun c => (c.id, c.stored (some tag.id))) ++
            (frameRecords z tag.id ++ cs.flatMap Branch.lower ++ forestRecords o) := by
        refine List.mem_append_left _ (List.mem_cons_of_mem _ ?_)
        exact List.mem_map.mpr ⟨c, hc, rfl⟩
      have hlt : c.id < t.size := hs.lt _ hmem
      have hn : t.node c.id = c.stored (some tag.id) := hs.node _ hmem
      rw [hu, if_pos ⟨List.mem_map_of_mem hc, hlt⟩, hn]
      rfl

end Tree

end Hoist
