import Hoist.Proofs.Working
import Mathlib.Logic.Relation

namespace Hoist

namespace Tree

variable {t u : Tree}

/-- A node stands right under another. -/
def IsUnder (t : Tree) (n parent : NodeId) : Prop := t.parent n = some parent

/-- A node is another one or stands below it. -/
def Within (t : Tree) (ancestor n : NodeId) : Prop := Relation.ReflTransGen t.IsUnder n ancestor

/-- A node stands below another one. -/
def Below (t : Tree) (ancestor n : NodeId) : Prop := Relation.TransGen t.IsUnder n ancestor

/-- Every node, under the script or not, is listed under the parent that it names and nowhere else,
and no way up comes back. -/
structure Sound (t : Tree) : Prop where
  listed : ∀ parent n, n ∈ t.children parent ↔ t.parent n = some parent
  nodup : ∀ n, (t.children n).Nodup
  acyclic : ∀ n, ¬ t.Below n n

theorem Within.refl (n : NodeId) : t.Within n n := Relation.ReflTransGen.refl

theorem Within.trans {a b n : NodeId} (hb : t.Within b n) (ha : t.Within a b) : t.Within a n :=
  Relation.ReflTransGen.trans hb ha

theorem Within.of_parent {a n p : NodeId} (hp : t.parent n = some p) (h : t.Within a p) :
    t.Within a n :=
  Relation.ReflTransGen.head hp h

theorem below_of_parent {a n p : NodeId} (hp : t.parent n = some p) (h : t.Within a p) :
    t.Below a n :=
  Relation.TransGen.head' hp h

theorem Below.within {a n : NodeId} (h : t.Below a n) : t.Within a n := h.to_reflTransGen

theorem below_of_within {a b n : NodeId} (hb : t.Within b n) (ha : t.Below a b) : t.Below a n :=
  Relation.TransGen.trans_right hb ha

theorem within_of_below {a b n : NodeId} (hb : t.Below b n) (ha : t.Within a b) : t.Below a n :=
  Relation.TransGen.trans_left hb ha

/-- A node without a parent stands below no other. -/
theorem eq_of_within_free {a n : NodeId} (hn : t.parent n = none) (h : t.Within a n) : a = n := by
  rcases Relation.ReflTransGen.cases_head h with rfl | ⟨p, hp, -⟩
  · rfl
  · have hp' : t.parent n = some p := hp
    rw [hn] at hp'
    cases hp'

theorem below_cases {a n : NodeId} (h : t.Below a n) :
    ∃ p, t.parent n = some p ∧ t.Within a p := by
  obtain ⟨p, hp, hrest⟩ := Relation.TransGen.head'_iff.mp h
  exact ⟨p, hp, hrest⟩

theorem within_cases {a n : NodeId} (h : t.Within a n) : a = n ∨ t.Below a n := by
  rcases Relation.reflTransGen_iff_eq_or_transGen.mp h with rfl | h
  · exact .inl rfl
  · exact .inr h

/-- A way up stays where the parents on it stay. -/
theorem within_congr {x : NodeId} (h : ∀ a, t.Within a x → u.parent a = t.parent a) (a : NodeId) :
    u.Within a x ↔ t.Within a x := by
  constructor
  · intro ha
    induction ha with
    | refl => exact .refl x
    | tail _ hstep ih =>
      have hp : t.parent _ = some _ := (h _ ih).symm.trans hstep
      exact Relation.ReflTransGen.tail ih hp
  · intro ha
    induction ha with
    | refl => exact .refl x
    | tail hbelow hstep ih =>
      have hp : u.parent _ = some _ := (h _ hbelow).trans hstep
      exact Relation.ReflTransGen.tail ih hp

theorem parent_of_size_le {n : NodeId} (h : t.size ≤ n) : t.parent n = none := by
  have hnone : t.nodes[n]? = none := Array.getElem?_eq_none h
  rw [parent, node, hnone]
  rfl

theorem children_of_size_le {n : NodeId} (h : t.size ≤ n) : t.children n = [] := by
  have hnone : t.nodes[n]? = none := Array.getElem?_eq_none h
  rw [children, node, hnone]
  rfl

theorem lt_of_parent {n p : NodeId} (h : t.parent n = some p) : n < t.size := by
  by_contra hn
  rw [parent_of_size_le (Nat.le_of_not_lt hn)] at h
  cases h

namespace Sound

variable (h : t.Sound)

include h

theorem congr (hp : ∀ n, u.parent n = t.parent n) (hc : ∀ n, u.children n = t.children n) :
    u.Sound where
  listed p n := by rw [hp, hc]; exact h.listed p n
  nodup n := by rw [hc]; exact h.nodup n
  acyclic n hn := by
    have hsame : u.IsUnder = t.IsUnder := by
      funext m p
      rw [IsUnder, IsUnder, hp]
    exact h.acyclic n (by rwa [Below, hsame] at hn)

theorem parent_lt {n p : NodeId} (hp : t.parent n = some p) : p < t.size := by
  by_contra hlt
  have hmem := (h.listed p n).mpr hp
  rw [children_of_size_le (Nat.le_of_not_lt hlt)] at hmem
  cases hmem

theorem child_lt {n p : NodeId} (hn : n ∈ t.children p) : n < t.size :=
  lt_of_parent ((h.listed p n).mp hn)

theorem within_lt {a n : NodeId} (ha : t.Within a n) (hn : n < t.size) : a < t.size := by
  induction ha with
  | refl => exact hn
  | tail _ hp _ => exact h.parent_lt hp

theorem not_within_parent {n p : NodeId} (hp : t.parent n = some p) : ¬ t.Within n p := fun hw =>
  h.acyclic n (below_of_parent hp hw)

/-- A node that has no parent can be listed under a node that is not below it. -/
theorem link {p c : NodeId} (hfree : t.parent c = none) (hw : ¬ t.Within c p)
    (hparent : ∀ n, u.parent n = if n = c then some p else t.parent n)
    (hp : (u.children p).Perm (c :: t.children p))
    (hchildren : ∀ n, n ≠ p → u.children n = t.children n) : u.Sound where
  listed q n := by
    have hc : n ∈ t.children q → n ≠ c := by
      rintro hn rfl
      have := (h.listed q n).mp hn
      rw [hfree] at this
      cases this
    by_cases hq : q = p
    · subst hq
      rw [hp.mem_iff, List.mem_cons, hparent]
      by_cases hn : n = c
      · simp [hn]
      · simp [hn, h.listed]
    · rw [hchildren q hq, hparent]
      by_cases hn : n = c
      · subst hn
        simp only [↓reduceIte, Option.some.injEq]
        constructor
        · exact fun hm => absurd rfl (hc hm)
        · exact fun he => absurd he.symm hq
      · simp [hn, h.listed]
  nodup q := by
    by_cases hq : q = p
    · subst hq
      refine hp.nodup_iff.mpr (List.nodup_cons.mpr ⟨fun hm => ?_, h.nodup q⟩)
      have := (h.listed q c).mp hm
      rw [hfree] at this
      cases this
    · rw [hchildren q hq]
      exact h.nodup q
  acyclic n hn := by
    -- A way up that takes the new step goes from the new child to its parent.
    have hway : ∀ {a b : NodeId}, u.Below b a → t.Below b a ∨ t.Within c a ∧ t.Within b p := by
      intro a b hab
      induction hab with
      | @single b hstep =>
        have hb : u.parent a = some b := hstep
        rw [hparent] at hb
        by_cases ha : a = c
        · rw [if_pos ha, Option.some.injEq] at hb
          exact .inr ⟨ha ▸ .refl a, hb ▸ .refl p⟩
        · rw [if_neg ha] at hb
          exact .inl (below_of_parent hb (.refl b))
      | @tail b d _ hstep ih =>
        have hd : u.parent b = some d := hstep
        rw [hparent] at hd
        by_cases hb : b = c
        · rw [if_pos hb, Option.some.injEq] at hd
          subst hb hd
          rcases ih with ih | ⟨-, ih⟩
          · exact .inr ⟨ih.within, .refl p⟩
          · exact absurd ih hw
        · rw [if_neg hb] at hd
          rcases ih with ih | ⟨ha, ih⟩
          · exact .inl (Relation.TransGen.tail ih hd)
          · exact .inr ⟨ha, Relation.ReflTransGen.tail ih hd⟩
    rcases hway hn with hn | ⟨ha, hb⟩
    · exact h.acyclic n hn
    · exact hw (hb.trans ha)

/-- Nodes can be taken from their parents. -/
theorem unlink {s : List NodeId}
    (hparent : ∀ n, u.parent n = if n ∈ s then none else t.parent n)
    (hchildren : ∀ n, u.children n = (t.children n).filter (· ∉ s)) : u.Sound where
  listed p n := by
    rw [hchildren, List.mem_filter, hparent, h.listed]
    by_cases hn : n ∈ s <;> simp [hn]
  nodup n := by
    rw [hchildren]
    exact (h.nodup n).filter _
  acyclic n hn := by
    refine h.acyclic n (Relation.TransGen.mono (fun a b hab => ?_) n n hn)
    have hb : u.parent a = some b := hab
    rw [hparent] at hb
    split at hb
    · cases hb
    · exact hb

end Sound

theorem parent_setParent (t : Tree) (n m : NodeId) (p : Option NodeId) :
    (t.setParent n p).parent m = if n = m ∧ m < t.size then p else t.parent m := by
  rw [parent, node_setParent]
  split <;> rfl

@[simp] theorem children_setParent (t : Tree) (n m : NodeId) (p : Option NodeId) :
    (t.setParent n p).children m = t.children m := by
  rw [children, node_setParent]
  split <;> rfl

@[simp] theorem parent_mapChildren (t : Tree) (n m : NodeId) (f : List NodeId → List NodeId) :
    (t.mapChildren n f).parent m = t.parent m := by
  rw [parent, node_mapChildren]
  split <;> rfl

theorem children_mapChildren (t : Tree) (n m : NodeId) (f : List NodeId → List NodeId) :
    (t.mapChildren n f).children m =
      if n = m ∧ m < t.size then f (t.children m) else t.children m := by
  rw [children, node_mapChildren]
  split <;> rfl

@[simp] theorem parent_push (t : Tree) (kind : Kind) (span : Span) (constant : Bool) (n : NodeId) :
    (t.push (.alone kind span constant)).parent n = t.parent n := by
  rw [parent, node_push]
  split
  · rename_i hn
    rw [parent_of_size_le (Nat.le_of_eq hn.symm)]
    rfl
  · rfl

@[simp] theorem children_push (t : Tree) (kind : Kind) (span : Span) (constant : Bool) (n : NodeId) :
    (t.push (.alone kind span constant)).children n = t.children n := by
  rw [children, node_push]
  split
  · rename_i hn
    rw [children_of_size_le (Nat.le_of_eq hn.symm)]
    rfl
  · rfl

/-- The place of a node in a sound tree is where its parent lists it. -/
theorem Sound.placeOf_cases (h : t.Sound) (n : NodeId) :
    t.parent n = none ∧ t.placeOf n = .error (t.problem n (.noParent n (t.kind n))) ∨
      ∃ p index, t.parent n = some p ∧ t.placeOf n = .ok (p, index) ∧
        (t.children p)[index]? = some n := by
  cases hp : t.parent n with
  | none => exact .inl ⟨rfl, by rw [placeOf, hp]⟩
  | some p =>
    have hmem : n ∈ t.children p := (h.listed p n).mpr hp
    obtain ⟨left, right, hsplit, hleft⟩ := List.eq_append_cons_of_mem hmem
    have hindex : t.childIndex p n = some left.length := by
      rw [childIndex, hsplit]
      exact idxOf?_append_cons hleft
    refine .inr ⟨p, left.length, rfl, ?_, ?_⟩
    · rw [placeOf, hp]
      simp only [hindex]
    · rw [hsplit]
      simp

end Tree

end Hoist
