import Hoist.Proofs.Enduring
import Hoist.Proofs.Mutation

namespace Hoist

namespace Tree

variable {t : Tree}

/-- A node with all below it. The budget bounds the depth. -/
def branchFrom (t : Tree) : Nat → NodeId → Branch
  | 0, n => .node (t.tag n) []
  | budget + 1, n => .node (t.tag n) ((t.children n).map (t.branchFrom budget))

/-- The nodes without parents. -/
def tops (t : Tree) : List NodeId := (List.range t.size).filter fun n => (t.parent n).isNone

/-- All nodes of a tree, below those without parents. -/
def forest (t : Tree) : List Branch := t.tops.map (t.branchFrom t.size)

theorem mem_tops {n : NodeId} : n ∈ t.tops ↔ n < t.size ∧ t.parent n = none := by
  simp [tops]

@[simp] theorem id_branchFrom (budget : Nat) (n : NodeId) : (t.branchFrom budget n).id = n := by
  cases budget <;> rfl

theorem map_id_branchFrom (budget : Nat) (ns : List NodeId) :
    (ns.map (t.branchFrom budget)).map Branch.id = ns := by
  simp [Function.comp_def]

theorem stored_branchFrom {budget : Nat} {n : NodeId} :
    (t.branchFrom (budget + 1) n).stored (t.parent n) = t.node n := by
  have hids := map_id_branchFrom (t := t) budget (t.children n)
  simp only [branchFrom, Branch.stored, Branch.children_node, hids]
  rfl

namespace Sound

variable (h : t.Sound)

include h

/-- What is taken off a tree as a branch is stored there. -/
theorem records_branchFrom {budget : Nat} {n : NodeId} (hs : t.Shallow budget n) :
    ∀ r ∈ (t.branchFrom budget n).records (t.parent n), t.node r.1 = r.2 := by
  induction budget generalizing n with
  | zero => exact absurd hs id
  | succ budget ih =>
    intro r hr
    rw [Branch.records_eq, id_branchFrom, stored_branchFrom] at hr
    rcases List.mem_cons.mp hr with rfl | hr
    · rfl
    · simp only [Branch.lower, branchFrom, Branch.children_node, Branch.id_node, List.flatMap_map,
        List.mem_flatMap] at hr
      obtain ⟨c, hc, hr⟩ := hr
      have hp : t.parent c = some n := (h.listed n c).mp hc
      exact ih (hs c hc) r (hp ▸ hr)

theorem ids_branchFrom_lt {budget : Nat} {n : NodeId} (hn : n < t.size) :
    ∀ m ∈ (t.branchFrom budget n).ids, m < t.size := by
  induction budget generalizing n with
  | zero => simpa [branchFrom, Branch.ids, Tree.tag] using hn
  | succ budget ih =>
    intro m hm
    rw [Branch.ids_eq, id_branchFrom, branchFrom, Branch.children_node, List.flatMap_map] at hm
    rcases List.mem_cons.mp hm with rfl | hm
    · exact hn
    · obtain ⟨c, hc, hm⟩ := List.mem_flatMap.mp hm
      exact ih (h.child_lt hc) m hm

theorem shows_branchFrom {n : NodeId} (hn : n < t.size) : t.Shows (t.branchFrom t.size n) :=
  ⟨t.parent n, h.records_branchFrom (h.shallow hn)⟩

/-- No node is in the forest twice. -/
theorem nodup_forest : (t.forest.flatMap Branch.ids).Nodup := by
  have hshows : ∀ b ∈ t.forest, t.Shows b := by
    intro b hb
    obtain ⟨n, hn, rfl⟩ := List.mem_map.mp hb
    exact h.shows_branchFrom (mem_tops.mp hn).1
  have htops : t.tops.Pairwise fun a b => ¬ t.Within a b ∧ ¬ t.Within b a := by
    refine List.Pairwise.imp_of_mem ?_ (List.nodup_range.filter _)
    intro a b ha hb hne
    exact ⟨fun hw => hne (eq_of_within_free (mem_tops.mp hb).2 hw),
      fun hw => hne (eq_of_within_free (mem_tops.mp ha).2 hw).symm⟩
  have hwalk := preorderFrom_shows _ t.forest hshows (Nat.le_refl _)
  rw [← hwalk, forest, map_id_branchFrom]
  exact h.nodup_preorderFrom _ _ htops

/-- A sound tree holds the branches of its forest. -/
theorem holds_forest : t.Holds t.forest where
  nodup := by
    rw [map_forestRecords]
    exact h.nodup_forest
  lt r hr := by
    have hmem := List.mem_map_of_mem (f := Prod.fst) hr
    rw [map_forestRecords] at hmem
    obtain ⟨b, hb, hm⟩ := List.mem_flatMap.mp hmem
    obtain ⟨n, hn, rfl⟩ := List.mem_map.mp hb
    exact h.ids_branchFrom_lt (mem_tops.mp hn).1 _ hm
  node r hr := by
    obtain ⟨b, hb, hr⟩ := List.mem_flatMap.mp hr
    obtain ⟨n, hn, rfl⟩ := List.mem_map.mp hb
    obtain ⟨hlt, hfree⟩ := mem_tops.mp hn
    exact h.records_branchFrom (h.shallow hlt) r (hfree ▸ hr)

/-- Every way up comes to an end. -/
theorem exists_top {n : NodeId} (hn : n < t.size) : ∃ top ∈ t.tops, t.Within top n := by
  generalize hlen : (t.ancestors n).length = len
  induction len generalizing n with
  | zero =>
    cases hp : t.parent n with
    | none => exact ⟨n, mem_tops.mpr ⟨hn, hp⟩, .refl n⟩
    | some p =>
      rw [h.ancestors_eq hp] at hlen
      cases hlen
  | succ len ih =>
    cases hp : t.parent n with
    | none =>
      rw [ancestors_of_free hp] at hlen
      cases hlen
    | some p =>
      rw [h.ancestors_eq hp, List.length_cons, Nat.succ.injEq] at hlen
      obtain ⟨top, htop, hw⟩ := ih (h.parent_lt hp) hlen
      exact ⟨top, htop, hw.of_parent hp⟩

/-- What is below a node of a branch is in that branch. -/
theorem mem_ids_of_within {b : Branch} {o : List Branch} (hb : t.Holds (b :: o)) {a n : NodeId}
    (ha : a ∈ b.ids) (hw : t.Within a n) : n ∈ b.ids := by
  induction hw using Relation.ReflTransGen.head_induction_on with
  | refl => exact ha
  | @head n p hp _ ih =>
    obtain ⟨z, ⟨tag, cs⟩, rfl, rfl⟩ := exists_plug_of_mem_ids ih
    have hn : n ∈ t.children tag.id := (h.listed tag.id n).mpr hp
    rw [show t.children tag.id = cs.map Branch.id from hb.shows.children] at hn
    obtain ⟨c, hc, rfl⟩ := List.mem_map.mp hn
    refine (ids_plug z _).mem_iff.mpr (List.mem_append_right _ ?_)
    rw [Branch.ids]
    exact List.mem_cons_of_mem _ (List.mem_flatMap.mpr ⟨c, hc, c.id_mem_ids⟩)

/-- Any branch of the forest can stand in front of the others. -/
theorem holds_cons {b : Branch} (hb : b ∈ t.forest) : ∃ o, t.Holds (b :: o) := by
  obtain ⟨left, right, hsplit⟩ := List.append_of_mem hb
  have hholds := h.holds_forest
  rw [hsplit] at hholds
  exact ⟨_, hholds.perm List.perm_middle⟩

/-- Every node is in the forest. -/
theorem mem_forest {n : NodeId} (hn : n < t.size) : n ∈ t.forest.flatMap Branch.ids := by
  obtain ⟨top, htop, hw⟩ := h.exists_top hn
  have hmem : t.branchFrom t.size top ∈ t.forest := List.mem_map_of_mem htop
  have htop : top ∈ (t.branchFrom t.size top).ids := by
    rw [Branch.ids_eq, id_branchFrom]
    exact List.mem_cons_self
  obtain ⟨o, ho⟩ := h.holds_cons hmem
  exact List.mem_flatMap.mpr ⟨_, hmem, h.mem_ids_of_within ho htop hw⟩

/-- Every node of a sound tree is a branch inside frames, beside other branches. -/
theorem exists_plug {n : NodeId} (hn : n < t.size) : ∃ (z : List Frame) (b : Branch)
    (o : List Branch), b.id = n ∧ t.Holds (plug z b :: o) := by
  obtain ⟨x, hx, hmem⟩ := List.mem_flatMap.mp (h.mem_forest hn)
  obtain ⟨z, b, rfl, hb⟩ := exists_plug_of_mem_ids hmem
  obtain ⟨o, ho⟩ := h.holds_cons hx
  exact ⟨z, b, o, hb, ho⟩

end Sound

end Tree

end Hoist
