import Hoist.Proofs.ForestWalk

namespace Hoist

namespace Branch

mutual

/-- A branch whose nodes have new names, counted from one on. -/
def renumber (first : NodeId) : Branch → Branch
  | .node tag cs => .node { tag with id := first } (renumberAll (first + 1) cs)

/-- Branches whose nodes have new names, counted from one on. -/
def renumberAll (first : NodeId) : List Branch → List Branch
  | [] => []
  | c :: cs => c.renumber first :: renumberAll (first + c.ids.length) cs

end

@[simp] theorem id_renumber (first : NodeId) (b : Branch) : (b.renumber first).id = first := by
  cases b
  rfl

@[simp] theorem kind_renumber (first : NodeId) (b : Branch) :
    (b.renumber first).kind = b.kind := by
  cases b
  rfl

end Branch

namespace Tree

variable {t : Tree}

/-- The copies of some children go behind those that are copied already. -/
theorem foldl_copyFrom_holds {cs : List Branch} (budget : Nat)
    (ih : ∀ c ∈ cs, ∀ (t : Tree) (o : List Branch), t.Holds o →
      (∃ p, ∀ r ∈ c.records p, r ∈ forestRecords o) →
      (copyFrom budget t c.id).Holds (c.renumber t.size :: o) ∧
        (copyFrom budget t c.id).size = t.size + c.ids.length)
    {tag : Tag} {done : List Branch} {o : List Branch} {t : Tree}
    (h : t.Holds (.node tag done :: o))
    (hs : ∀ c ∈ cs, ∃ p, ∀ r ∈ c.records p, r ∈ forestRecords o) :
    let u := (cs.map Branch.id).foldl
      (fun t c => (copyFrom budget t c).attachLast tag.id t.size) t
    u.Holds (.node tag (done ++ Branch.renumberAll t.size cs) :: o) ∧
      u.size = t.size + (cs.flatMap Branch.ids).length := by
  induction cs generalizing t done with
  | nil => simpa [Branch.renumberAll] using h
  | cons c cs ih' =>
    obtain ⟨p, hp⟩ := hs c List.mem_cons_self
    have hmem : ∀ r ∈ c.records p, r ∈ forestRecords (.node tag done :: o) := by
      intro r hr
      rw [forestRecords, List.flatMap_cons]
      exact List.mem_append_right _ (hp r hr)
    obtain ⟨hc, hsize⟩ := ih c List.mem_cons_self t _ h ⟨p, hmem⟩
    have hl := (hc.perm (List.Perm.swap _ _ _)).attachLast
    rw [Branch.id_renumber] at hl
    have hsize' : ((copyFrom budget t c.id).attachLast tag.id t.size).size =
        t.size + c.ids.length := by
      simpa [Tree.attachLast, Tree.attach] using hsize
    have hrest := ih' (fun d hd => ih d (List.mem_cons_of_mem _ hd)) hl
      (fun d hd => hs d (List.mem_cons_of_mem _ hd))
    rw [hsize'] at hrest
    simp only [List.map_cons, List.foldl_cons, List.flatMap_cons, List.length_append,
      Branch.renumberAll]
    refine ⟨by simpa using hrest.1, by omega⟩

/-- A tree that holds the records of a branch has its node, and holds the records of its children. -/
theorem Holds.node_and_children {tag : Tag} {cs o : List Branch} {p : Option NodeId}
    (h : t.Holds o) (hp : ∀ r ∈ (Branch.node tag cs).records p, r ∈ forestRecords o) :
    t.node tag.id = Branch.stored p (.node tag cs) ∧
      ∀ c ∈ cs, ∃ p, ∀ r ∈ c.records p, r ∈ forestRecords o := by
  rw [Branch.records] at hp
  refine ⟨Stores.node h (tag.id, _) (hp _ List.mem_cons_self), fun c hc => ?_⟩
  exact ⟨some tag.id, fun r hr =>
    hp r (List.mem_cons_of_mem _ (List.mem_flatMap.mpr ⟨c, hc, hr⟩))⟩

theorem copyFrom_holds (b : Branch) (budget : Nat) (hb : b.ids.length ≤ budget) (t : Tree)
    (o : List Branch) (h : t.Holds o) (hs : ∃ p, ∀ r ∈ b.records p, r ∈ forestRecords o) :
    (copyFrom budget t b.id).Holds (b.renumber t.size :: o) ∧
      (copyFrom budget t b.id).size = t.size + b.ids.length := by
  induction b using Branch.induct generalizing budget t o with
  | node tag cs ih =>
    rw [Branch.ids, List.length_cons] at hb
    obtain ⟨p, hp⟩ := hs
    cases budget with
    | zero => omega
    | succ budget =>
      obtain ⟨hnode, hchild⟩ := h.node_and_children hp
      have hfold := foldl_copyFrom_holds budget (fun c hc => ih c hc budget (by
          have := length_le_flatMap hc
          omega)) (h.push tag.kind tag.span tag.constant) hchild
      rw [size_push] at hfold
      rw [Branch.id_node, copyFrom, hnode, Branch.renumber, Branch.ids, List.length_cons]
      exact ⟨hfold.1, hfold.2.trans (by omega)⟩

/-- Copying makes a branch of the same nodes under new names. -/
theorem Holds.copy {z : List Frame} {b : Branch} {o : List Branch}
    (h : t.Holds (plug z b :: o)) :
    (t.copy b.id).Holds (b.renumber t.size :: plug z b :: o) ∧
      (t.copy b.id).size = t.size + b.ids.length := by
  have hl := h.ids_length_le
  refine copyFrom_holds b t.size (by omega) t _ h ⟨holder z, fun r hr => ?_⟩
  rw [forestRecords, List.flatMap_cons]
  exact List.mem_append_left _ ((records_plug z b).mem_iff.mpr (List.mem_append_right _ hr))

end Tree

end Hoist
