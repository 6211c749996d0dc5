import Hoist.Proofs.OwnershipEdit

namespace Hoist

namespace Tree

variable {t u : Tree}

/-- Different nodes of a tree are no more than the tree has. -/
theorem length_le_size {ns : List NodeId} (hn : ns.Nodup) (hlt : ∀ n ∈ ns, n < t.size) :
    ns.length ≤ t.size := by
  have hsub : ns ⊆ List.range t.size := fun n hm => List.mem_range.mpr (hlt n hm)
  simpa using (List.subperm_of_subset hn hsub).length_le

/-- A smaller budget only cuts the way up short. -/
theorem ancestorsFrom_take (budget more : Nat) (n : Option NodeId) :
    t.ancestorsFrom budget n = (t.ancestorsFrom (budget + more) n).take budget := by
  induction budget generalizing n with
  | zero => simp [ancestorsFrom]
  | succ budget ih =>
    cases n with
    | none => simp [ancestorsFrom, Nat.succ_add]
    | some n => rw [Nat.succ_add, ancestorsFrom, ancestorsFrom, List.take_succ_cons, ← ih]

/-- A smaller budget only cuts the way down short. -/
theorem preorderFrom_take (budget more : Nat) (stack : List NodeId) :
    t.preorderFrom budget stack = (t.preorderFrom (budget + more) stack).take budget := by
  induction budget generalizing stack with
  | zero => simp [preorderFrom]
  | succ budget ih =>
    cases stack with
    | nil => simp [preorderFrom, Nat.succ_add]
    | cons n stack => rw [Nat.succ_add, preorderFrom, preorderFrom, List.take_succ_cons, ← ih]

theorem ancestorsFrom_none (budget : Nat) : t.ancestorsFrom budget none = [] := by
  cases budget <;> rfl

theorem ancestors_of_free {n : NodeId} (hn : t.parent n = none) : t.ancestors n = [] := by
  rw [ancestors, hn, ancestorsFrom_none]

theorem within_of_mem_ancestorsFrom {budget n a : Nat} (ha : a ∈ t.ancestorsFrom budget (some n)) :
    t.Within a n := by
  induction budget generalizing n with
  | zero => simp [ancestorsFrom] at ha
  | succ budget ih =>
    rw [ancestorsFrom, List.mem_cons] at ha
    rcases ha with rfl | ha
    · exact .refl a
    · cases hp : t.parent n with
      | none =>
        rw [hp, ancestorsFrom_none] at ha
        cases ha
      | some p =>
        rw [hp] at ha
        exact (ih ha).of_parent hp

theorem within_of_mem_preorderFrom {budget a : Nat} {stack : List NodeId} (hc : ∀ p n,
    n ∈ t.children p → t.parent n = some p) (ha : a ∈ t.preorderFrom budget stack) :
    ∃ n ∈ stack, t.Within n a := by
  induction budget generalizing stack with
  | zero => simp [preorderFrom] at ha
  | succ budget ih =>
    cases stack with
    | nil => simp [preorderFrom] at ha
    | cons n stack =>
      rw [preorderFrom, List.mem_cons] at ha
      rcases ha with rfl | ha
      · exact ⟨a, List.mem_cons_self, .refl a⟩
      · obtain ⟨m, hm, hw⟩ := ih ha
        rcases List.mem_append.mp hm with hm | hm
        · have hstep : t.Within n m := (Within.refl n).of_parent (hc n m hm)
          exact ⟨n, List.mem_cons_self, hw.trans hstep⟩
        · exact ⟨m, List.mem_cons_of_mem _ hm, hw⟩

namespace Sound

variable (h : t.Sound)

include h

theorem nodup_ancestorsFrom (budget n : Nat) : (t.ancestorsFrom budget (some n)).Nodup := by
  induction budget generalizing n with
  | zero => simp [ancestorsFrom]
  | succ budget ih =>
    rw [ancestorsFrom]
    cases hp : t.parent n with
    | none => simp [ancestorsFrom_none]
    | some p =>
      refine List.nodup_cons.mpr ⟨fun hm => ?_, ih p⟩
      exact h.not_within_parent hp (within_of_mem_ancestorsFrom hm)

/-- The way up ends by itself. -/
theorem ancestorsFrom_size (more : Nat) {n : NodeId} (hn : n < t.size) :
    t.ancestorsFrom (t.size + more) (some n) = t.ancestorsFrom t.size (some n) := by
  have hlength : (t.ancestorsFrom (t.size + more) (some n)).length ≤ t.size :=
    length_le_size (h.nodup_ancestorsFrom _ n) fun a ha =>
      h.within_lt (within_of_mem_ancestorsFrom ha) hn
  rw [ancestorsFrom_take t.size more, List.take_of_length_le hlength]

theorem ancestors_eq {n p : NodeId} (hp : t.parent n = some p) :
    t.ancestors n = p :: t.ancestors p := by
  have hlt : p < t.size := h.parent_lt hp
  have hmore : t.ancestorsFrom (t.size + 1) (some p) = p :: t.ancestors p := by
    rw [ancestorsFrom]
    rfl
  rw [Tree.ancestors, hp, ← h.ancestorsFrom_size 1 hlt, hmore]

theorem mem_ancestors {n a : NodeId} : a ∈ t.ancestors n ↔ t.Below a n := by
  constructor
  · intro ha
    cases hp : t.parent n with
    | none =>
      rw [ancestors_of_free hp] at ha
      cases ha
    | some p =>
      rw [Tree.ancestors, hp] at ha
      exact below_of_parent hp (within_of_mem_ancestorsFrom ha)
  · intro ha
    induction ha using Relation.TransGen.head_induction_on with
    | single hp =>
      rw [h.ancestors_eq hp]
      exact List.mem_cons_self
    | head hp _ ih =>
      rw [h.ancestors_eq hp]
      exact List.mem_cons_of_mem _ ih

theorem isDescendantOrSelf_iff {n a : NodeId} :
    t.isDescendantOrSelf n a = true ↔ t.Within a n := by
  rw [isDescendantOrSelf, Bool.or_eq_true, beq_iff_eq, List.contains_iff_mem, h.mem_ancestors]
  constructor
  · rintro (rfl | ha)
    · exact .refl n
    · exact ha.within
  · intro ha
    rcases within_cases ha with rfl | ha
    · exact .inl rfl
    · exact .inr ha

/-- The way up from a node on the way up is the rest of the way. -/
theorem ancestors_of_append {n a : NodeId} {left right : List NodeId}
    (hn : t.ancestors n = left ++ a :: right) : t.ancestors a = right := by
  induction left generalizing n with
  | nil =>
    cases hp : t.parent n with
    | none =>
      rw [ancestors_of_free hp] at hn
      cases hn
    | some p =>
      rw [h.ancestors_eq hp] at hn
      obtain ⟨rfl, hr⟩ := List.cons.inj hn
      exact hr
  | cons m left ih =>
    cases hp : t.parent n with
    | none =>
      rw [ancestors_of_free hp] at hn
      cases hn
    | some p =>
      rw [h.ancestors_eq hp] at hn
      obtain ⟨rfl, hr⟩ := List.cons.inj hn
      exact ih hr

/-- What is below one child of a node is not below another one. -/
theorem eq_of_within_children {n a b : NodeId} (ha : a ∈ t.children n) (hb : b ∈ t.children n)
    (hw : t.Within a b) : a = b := by
  rcases within_cases hw with rfl | hw
  · rfl
  · obtain ⟨p, hp, hw⟩ := below_cases hw
    rw [(h.listed n b).mp hb] at hp
    cases hp
    exact absurd hw (h.not_within_parent ((h.listed n a).mp ha))

/-- No node of a list is below another one. -/
theorem nodup_preorderFrom (budget : Nat) (stack : List NodeId)
    (hs : stack.Pairwise fun a b => ¬ t.Within a b ∧ ¬ t.Within b a) :
    (t.preorderFrom budget stack).Nodup := by
  induction budget generalizing stack with
  | zero => simp [preorderFrom]
  | succ budget ih =>
    cases stack with
    | nil => simp [preorderFrom]
    | cons n stack =>
      obtain ⟨hn, hstack⟩ := List.pairwise_cons.mp hs
      have hchild : ∀ c ∈ t.children n, t.parent c = some n := fun c hc => (h.listed n c).mp hc
      rw [preorderFrom]
      refine List.nodup_cons.mpr ⟨fun hm => ?_, ih _ (List.pairwise_append.mpr ⟨?_, hstack, ?_⟩)⟩
      · obtain ⟨m, hm, hw⟩ := within_of_mem_preorderFrom (fun p c => (h.listed p c).mp) hm
        rcases List.mem_append.mp hm with hm | hm
        · exact h.not_within_parent (hchild m hm) hw
        · exact (hn m hm).2 hw
      · refine (h.nodup n).imp_of_mem fun ha hb hne => ?_
        exact ⟨fun hw => hne (h.eq_of_within_children ha hb hw),
          fun hw => hne (h.eq_of_within_children hb ha hw).symm⟩
      · intro c hc m hm
        refine ⟨fun hw => (hn m hm).1 (hw.trans ((Within.refl n).of_parent (hchild c hc))), ?_⟩
        intro hw
        rcases within_cases hw with rfl | hw
        · exact (hn m hm).1 ((Within.refl n).of_parent (hchild m hc))
        · obtain ⟨p, hp, hw⟩ := below_cases hw
          rw [hchild c hc] at hp
          cases hp
          exact (hn m hm).2 hw

/-- The way down ends by itself. -/
theorem preorderFrom_size (more : Nat) {n : NodeId} (hn : n < t.size) :
    t.preorderFrom (t.size + more) [n] = t.preorder n := by
  have hlt : ∀ {budget : Nat} {stack : List NodeId}, (∀ m ∈ stack, m < t.size) →
      ∀ a ∈ t.preorderFrom budget stack, a < t.size := by
    intro budget
    induction budget with
    | zero => simp [preorderFrom]
    | succ budget ih =>
      intro stack hs
      cases stack with
      | nil => simp [preorderFrom]
      | cons m stack =>
        rw [preorderFrom]
        refine List.forall_mem_cons.mpr ⟨hs m List.mem_cons_self, ih fun c hc => ?_⟩
        rcases List.mem_append.mp hc with hc | hc
        · exact h.child_lt hc
        · exact hs c (List.mem_cons_of_mem _ hc)
  have hlength : (t.preorderFrom (t.size + more) [n]).length ≤ t.size :=
    length_le_size (h.nodup_preorderFrom _ [n] (by simp)) (hlt (by simpa using hn))
  rw [preorder, preorderFrom_take t.size more, List.take_of_length_le hlength]

/-- A sound tree passes its check. -/
theorem check : t.check = .ok () := by
  have hnodup : (t.preorder root).Nodup := h.nodup_preorderFrom _ [root] (by simp)
  rw [Tree.check, findStray_eq_none (fun n _ c hc => (h.listed n c).mp hc) hnodup (by simp)]

end Sound

end Tree

end Hoist
