import Hoist.Proofs.OwnershipWalk

namespace Hoist

namespace Tree

/-- What one call that changes a tree makes of it. -/
inductive Mutates (t : Tree) : Tree → Prop
  | push (kind : Kind) (span : Span) (constant : Bool) :
    t.Mutates (t.push (.alone kind span constant))
  | appendChild {p c : NodeId} {u : Tree} : t.appendChild p c = .ok u → t.Mutates u
  | prependChild {p c : NodeId} {u : Tree} : t.prependChild p c = .ok u → t.Mutates u
  | insertBefore {n m : NodeId} {u : Tree} : t.insertBefore n m = .ok u → t.Mutates u
  | insertAfter {n m : NodeId} {u : Tree} : t.insertAfter n m = .ok u → t.Mutates u
  | replace {n m : NodeId} {u : Tree} : t.replace n m = .ok u → t.Mutates u
  | detach {n : NodeId} {u : Tree} : t.detach n = .ok u → t.Mutates u
  | detachChildren (n : NodeId) : t.Mutates (t.detachChildren n)
  | setConstant (n : NodeId) (constant : Bool) : t.Mutates (t.setConstant n constant)

/-- A tree becomes another one by changes each of which leaves a sound tree. -/
inductive Edits (t : Tree) : Tree → Prop
  | refl : t.Edits t
  | step {u v : Tree} : t.Edits u → u.Mutates v → v.Sound → t.Edits v

variable {t u v : Tree}

theorem Edits.trans (h : t.Edits u) (h' : u.Edits v) : t.Edits v := by
  induction h' with
  | refl => exact h
  | step _ hm hs ih => exact ih.step hm hs

theorem Edits.sound (h : t.Edits u) (ht : t.Sound) : u.Sound := by
  cases h with
  | refl => exact ht
  | step _ _ hs => exact hs

theorem Mutates.edits (h : t.Mutates u) (hu : u.Sound) : t.Edits u := .step .refl h hu

/-- No way down from a node is as long as a number. -/
def Shallow (t : Tree) : Nat → NodeId → Prop
  | 0, _ => False
  | height + 1, n => ∀ c ∈ t.children n, t.Shallow height c

namespace Sound

variable (h : t.Sound)

include h

/-- No way down is longer than a tree has nodes. -/
theorem shallow {n : NodeId} (hn : n < t.size) : t.Shallow t.size n := by
  have hway : ∀ (height : Nat) (above : List NodeId) (m : NodeId), above.Nodup →
      (∀ a ∈ above, t.Below a m) → m < t.size → t.size ≤ height + above.length →
        t.Shallow height m := by
    intro height
    induction height with
    | zero =>
      intro above m hnodup habove hm hlen
      have hfresh : m ∉ above := fun hmem => h.acyclic m (habove m hmem)
      have hlt : ∀ a ∈ m :: above, a < t.size := List.forall_mem_cons.mpr
        ⟨hm, fun a ha => h.within_lt (habove a ha).within hm⟩
      have hle := length_le_size (List.nodup_cons.mpr ⟨hfresh, hnodup⟩) hlt
      rw [List.length_cons] at hle
      omega
    | succ height ih =>
      intro above m hnodup habove hm hlen c hc
      have hp : t.parent c = some m := (h.listed m c).mp hc
      have hfresh : m ∉ above := fun hmem => h.acyclic m (habove m hmem)
      refine ih (m :: above) c (List.nodup_cons.mpr ⟨hfresh, hnodup⟩) ?_ (h.child_lt hc) ?_
      · refine List.forall_mem_cons.mpr ⟨below_of_parent hp (.refl m), fun a ha => ?_⟩
        exact below_of_parent hp (habove a ha).within
      · rw [List.length_cons]
        omega
  exact hway t.size [] n List.nodup_nil (by simp) hn (by simp)

theorem shallow_congr {height : Nat} {n : NodeId} (hn : n < t.size)
    (hu : ∀ m < t.size, u.children m = t.children m) (hs : t.Shallow height n) :
    u.Shallow height n := by
  induction height generalizing n with
  | zero => exact hs
  | succ height ih =>
    intro c hc
    rw [hu n hn] at hc
    exact ih (h.child_lt hc) (hs c hc)

end Sound

/-- What copying does to a tree: all that was there stays, and the copy is a new node alone. -/
structure Copies (t u : Tree) : Prop where
  edits : t.Edits u
  size : t.size < u.size
  parent : ∀ m < t.size, u.parent m = t.parent m
  children : ∀ m < t.size, u.children m = t.children m
  free : u.parent t.size = none

/-- Copies of nodes are put under a new node, one after the other. -/
theorem foldl_copyFrom_edits {budget copy : Nat} {cs : List NodeId} (ht : t.Sound)
    (ih : ∀ (u : Tree) (c : NodeId), u.Sound → c < u.size → u.Shallow budget c →
      u.Copies (copyFrom budget u c))
    (hu : u.Sound) (hcs : ∀ c ∈ cs, c < t.size ∧ t.Shallow budget c) (hsize : t.size ≤ copy)
    (hcopy : copy < u.size) (hold : ∀ m < t.size, u.children m = t.children m)
    (hfree : u.parent copy = none) :
    let v := cs.foldl (fun t c => (copyFrom budget t c).attachLast copy t.size) u
    u.Edits v ∧ u.size ≤ v.size ∧ (∀ m < u.size, v.parent m = u.parent m) ∧
      ∀ m < u.size, m ≠ copy → v.children m = u.children m := by
  induction cs generalizing u with
  | nil => exact ⟨.refl, Nat.le_refl _, fun _ _ => rfl, fun _ _ _ => rfl⟩
  | cons c cs ihcs =>
    obtain ⟨hc, hshallow⟩ := hcs c List.mem_cons_self
    have hlt : c < u.size := Nat.lt_trans (Nat.lt_of_lt_of_le hc hsize) hcopy
    have hone : u.Copies (copyFrom budget u c) :=
      ih u c hu hlt (ht.shallow_congr hc hold hshallow)
    generalize hv : copyFrom budget u c = v at hone
    have hvs : v.Sound := hone.edits.sound hu
    have hvfree : v.parent copy = none := (hone.parent copy hcopy).trans hfree
    have hapart : ¬ v.Within u.size copy := fun hw =>
      Nat.ne_of_gt hcopy (eq_of_within_free hvfree hw)
    have hcv : copy < v.size := Nat.lt_trans hcopy hone.size
    have happend : v.appendChild copy u.size = .ok (v.attachLast copy u.size) := by
      rw [appendChild, requireFree, hone.free]
      rfl
    obtain ⟨hws, hwm⟩ := hvs.appendChild hcv hone.size hapart happend
    have hwc : ∀ m, m ≠ copy → (v.attachLast copy u.size).children m = v.children m := by
      intro m hm
      rw [attachLast, children_attach, if_neg fun he => hm he.1.symm]
    have hwp : ∀ m < u.size, (v.attachLast copy u.size).parent m = u.parent m := by
      intro m hm
      rw [hwm.parent, if_neg (Nat.ne_of_lt hm), hone.parent m hm]
    have hmore : u.size < (v.attachLast copy u.size).size := by
      rw [hwm.size]
      exact hone.size
    obtain ⟨hedits, hle, hparent, hchildren⟩ := ihcs hws
      (fun d hd => hcs d (List.mem_cons_of_mem _ hd)) (Nat.lt_trans hcopy hmore)
      (fun m hm => by rw [hwc m (by omega), hone.children m (by omega), hold m hm])
      ((hwp copy hcopy).trans hfree)
    rw [List.foldl_cons, hv]
    refine ⟨(hone.edits.trans ((Mutates.appendChild happend).edits hws)).trans hedits, by omega,
      fun m hm => ?_, fun m hm hne => ?_⟩
    · rw [hparent m (by omega), hwp m hm]
    · rw [hchildren m (by omega) hne, hwc m hne, hone.children m hm]

theorem Sound.copyFrom_copies {budget : Nat} {n : NodeId} (h : t.Sound) (hn : n < t.size)
    (hs : t.Shallow budget n) : t.Copies (copyFrom budget t n) := by
  induction budget generalizing t n with
  | zero => exact absurd hs id
  | succ budget ih =>
    have hpush := h.push (t.node n).kind (t.node n).span (t.node n).constant
    have hsize : (t.push (.alone (t.node n).kind (t.node n).span (t.node n).constant)).size =
        t.size + 1 := size_push _ _
    have hcs : ∀ c ∈ t.children n, c < t.size ∧ t.Shallow budget c := fun c hc =>
      ⟨h.child_lt hc, hs c hc⟩
    obtain ⟨hedits, hle, hparent, hchildren⟩ := foldl_copyFrom_edits h
      (fun u c hu hc hshallow => ih hu hc hshallow) hpush hcs (Nat.le_refl _) (by omega)
      (fun m _ => children_push t _ _ _ m)
      ((parent_push t _ _ _ _).trans (parent_of_size_le (Nat.le_refl _)))
    rw [copyFrom]
    refine ⟨(Mutates.edits (.push _ _ _) hpush).trans hedits, ?_, fun m hm => ?_, fun m hm => ?_, ?_⟩
    · rw [hsize] at hle
      exact hle
    · exact (hparent m (by omega)).trans (parent_push t _ _ _ m)
    · exact (hchildren m (by omega) (Nat.ne_of_lt hm)).trans (children_push t _ _ _ m)
    · refine (hparent t.size (by omega)).trans ((parent_push t _ _ _ _).trans ?_)
      exact parent_of_size_le (Nat.le_refl _)

/-- A subtree of a sound tree is copied whole. -/
theorem Sound.copy {n : NodeId} (h : t.Sound) (hn : n < t.size) : t.Copies (t.copy n) :=
  h.copyFrom_copies hn (h.shallow hn)

end Tree

end Hoist
