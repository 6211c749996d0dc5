import Hoist.Extraction
import Hoist.Proofs.Mutation

namespace Hoist

namespace Tree

variable {t u v : Tree} {M N : NodeId → Prop}

/-- Nodes of a tree but for some have the same parents in another, which may have more nodes. -/
structure Keeps (t u : Tree) (M : NodeId → Prop) : Prop where
  size : t.size ≤ u.size
  parent : ∀ n < t.size, ¬ M n → u.parent n = t.parent n

theorem Keeps.refl (t : Tree) (M : NodeId → Prop) : t.Keeps t M := ⟨Nat.le_refl _, fun _ _ _ => rfl⟩

theorem Keeps.trans (h : t.Keeps u M) (h' : u.Keeps v N) (hN : ∀ n < t.size, N n → M n) :
    t.Keeps v M where
  size := Nat.le_trans h.size h'.size
  parent n hn hm := by
    have hlt : n < u.size := Nat.lt_of_lt_of_le hn h.size
    rw [h'.parent n hlt fun hc => hm (hN n hn hc), h.parent n hn hm]

theorem Keeps.mono (h : t.Keeps u M) (hN : ∀ n < t.size, M n → N n) : t.Keeps u N where
  size := h.size
  parent n hn hm := h.parent n hn fun hc => hm (hN n hn hc)

theorem Moves.keeps {n : NodeId} {p : Option NodeId} (h : t.Moves u n p) : t.Keeps u (· = n) where
  size := Nat.le_of_eq h.size.symm
  parent m _ hm := by rw [h.parent, if_neg hm]

/-- What is above a node stays above it where no node on the way is moved. -/
theorem Keeps.within (h : t.Keeps u M) (ht : t.Sound) {n : NodeId} (hn : n < t.size)
    (hway : ∀ a, t.Within a n → ¬ M a) (a : NodeId) : u.Within a n ↔ t.Within a n :=
  within_congr (fun b hb => h.parent b (ht.within_lt hb hn) (hway b hb)) a

/-- A new node is not above one that is old, and above which nothing is moved. -/
theorem Keeps.not_within (h : t.Keeps u M) (ht : t.Sound) {n a : NodeId} (hn : n < t.size)
    (hway : ∀ b, t.Within b n → ¬ M b) (ha : t.size ≤ a) : ¬ u.Within a n := fun hw =>
  Nat.not_lt.mpr ha (ht.within_lt ((h.within ht hn hway a).mp hw) hn)

/-- A pass over a tree goes on from a statement to another that is listed under the same node. -/
structure Passes (t u : Tree) (b b' : NodeId) (M : NodeId → Prop) : Prop
    extends t.Keeps u M where
  beside : u.parent b' = t.parent b
  fresh : b' = b ∨ t.size ≤ b'

theorem Passes.trans {b b' b'' : NodeId} (h : t.Passes u b b' M) (h' : u.Passes v b' b'' N)
    (hN : ∀ n < t.size, N n → M n) : t.Passes v b b'' M where
  toKeeps := h.toKeeps.trans h'.toKeeps hN
  beside := h'.beside.trans h.beside
  fresh := by
    rcases h'.fresh with rfl | hfresh
    · exact h.fresh
    · exact .inr (Nat.le_trans h.size hfresh)

theorem Passes.mono {b b' : NodeId} (h : t.Passes u b b' M) (hN : ∀ n < t.size, M n → N n) :
    t.Passes u b b' N where
  toKeeps := h.toKeeps.mono hN
  beside := h.beside
  fresh := h.fresh

theorem Passes.refl (t : Tree) (b : NodeId) (M : NodeId → Prop) : t.Passes t b b M where
  toKeeps := .refl t M
  beside := rfl
  fresh := .inl rfl

/-- A node that a statement is not below stays apart from where a pass has got to. -/
theorem Passes.not_within {b b' n p : NodeId} (h : t.Passes u b b' M) (ht : t.Sound)
    (hb : t.parent b = some p) (hway : ∀ a, t.Within a b → ¬ M a) (hn : n < t.size)
    (hw : ¬ t.Within n b) : ¬ u.Within n b' := by
  have hblt : b < t.size := lt_of_parent hb
  rcases h.fresh with rfl | hfresh
  · exact fun hc => hw ((h.within ht hblt hway n).mp hc)
  · intro hc
    rcases within_cases hc with rfl | hc
    · exact Nat.not_lt.mpr hfresh hn
    · obtain ⟨q, hq, hc⟩ := below_cases hc
      rw [h.beside, hb, Option.some.injEq] at hq
      subst hq
      have hpway : ∀ a, t.Within a p → ¬ M a := fun a ha => hway a (ha.of_parent hb)
      have hc' := (h.within ht (ht.parent_lt hb) hpway n).mp hc
      exact hw (hc'.of_parent hb)

end Tree

namespace Step

variable {α β : Type} {x : Step α} {f : α → Step β} {k : α → Step β} {w : Workspace}
  {P Q : α → Tree → Prop} {R : β → Tree → Prop}

/-- A step changes the tree by sound edits only, also where it is refused, and where it is done it
leaves a tree as wanted. -/
def Safe (x : Step α) (w : Workspace) (Q : α → Tree → Prop) : Prop :=
  match x w with
  | .ok a w' => w.tree.Edits w'.tree ∧ Q a w'.tree
  | .error _ w' => w.tree.Edits w'.tree

theorem Safe.bind (hw : w.tree.Sound) (hx : x.Safe w Q)
    (hf : ∀ (a : α) (w' : Workspace), w'.tree.Sound → Q a w'.tree → (f a).Safe w' R) :
    (x >>= f).Safe w R := by
  show Safe (EStateM.bind x f) w R
  rw [Safe] at hx
  rw [Safe, EStateM.bind]
  cases hxw : x w with
  | error r w' =>
    rw [hxw] at hx
    exact hx
  | ok a w' =>
    rw [hxw] at hx
    have hfa := hf a w' (hx.1.sound hw) hx.2
    rw [Safe] at hfa
    dsimp only
    cases hfw : f a w' with
    | error r w'' =>
      rw [hfw] at hfa
      exact hx.1.trans hfa
    | ok b w'' =>
      rw [hfw] at hfa
      exact ⟨hx.1.trans hfa.1, hfa.2⟩

theorem Safe.imp (hx : x.Safe w P) (h : ∀ a u, P a u → Q a u) : x.Safe w Q := by
  rw [Safe] at hx ⊢
  cases hxw : x w with
  | error r w' =>
    rw [hxw] at hx
    exact hx
  | ok a w' =>
    rw [hxw] at hx
    exact ⟨hx.1, h a _ hx.2⟩

theorem safe_pure {a : α} (h : Q a w.tree) : (pure a : Step α).Safe w Q := ⟨.refl, h⟩

theorem safe_look_bind {g : Tree → α} (h : (k (g w.tree)).Safe w R) : (look g >>= k).Safe w R := h

theorem safe_get_bind {k : Workspace → Step β} (h : (k w).Safe w R) : (get >>= k).Safe w R := h

theorem safe_ask_bind {g : Tree → Except Refusal α}
    (h : ∀ a, g w.tree = .ok a → (k a).Safe w R) : (ask g >>= k).Safe w R := by
  show Safe (EStateM.bind (ask g) k) w R
  rw [Safe, EStateM.bind, ask]
  cases hg : g w.tree with
  | error r => exact .refl
  | ok a => exact h a hg

theorem safe_ask {g : Tree → Except Refusal α} (h : ∀ a, g w.tree = .ok a → Q a w.tree) :
    (ask g).Safe w Q := by
  rw [Safe, ask]
  cases hg : g w.tree with
  | error r => exact .refl
  | ok a => exact ⟨.refl, h a hg⟩

theorem safe_refuse {n : NodeId} {cause : Cause} : (refuse n cause : Step α).Safe w Q := Tree.Edits.refl

theorem safe_edit {g : Tree → Except Refusal Tree} {Q : Unit → Tree → Prop}
    (h : ∀ u, g w.tree = .ok u → w.tree.Edits u ∧ Q () u) : (edit g).Safe w Q := by
  rw [Safe, edit]
  cases hg : g w.tree with
  | error r => exact .refl
  | ok u => exact h u hg

theorem Safe.discard (hx : x.Safe w Q) : (discard x).Safe w fun _ _ => True := by
  show Safe (EStateM.map (Function.const α PUnit.unit) x) w _
  rw [Safe] at hx ⊢
  rw [EStateM.map]
  cases hxw : x w with
  | error r w' =>
    rw [hxw] at hx
    exact hx
  | ok a w' =>
    rw [hxw] at hx
    exact ⟨hx.1, trivial⟩

theorem safe_freshConstant : freshConstant.Safe w fun _ u => u = w.tree := by
  have htree : ∀ (v : Workspace) (name : String), (v.addConstant name).tree = v.tree := by
    intro v name
    rw [Workspace.addConstant]
    split <;> rfl
  show w.tree.Edits (Workspace.addConstant _ _).tree ∧ (Workspace.addConstant _ _).tree = w.tree
  rw [htree]
  exact ⟨.refl, rfl⟩

theorem safe_freshName : freshName.Safe w fun _ u => u = w.tree := ⟨.refl, rfl⟩

theorem safe_reportChange : reportChange.Safe w fun _ u => u = w.tree := ⟨.refl, rfl⟩

theorem safe_parentOf (n : NodeId) :
    (parentOf n).Safe w fun p u => u = w.tree ∧ u.parent n = some p := by
  refine safe_look_bind ?_
  cases hp : w.tree.parent n with
  | none => exact safe_look_bind safe_refuse
  | some p => exact safe_pure ⟨rfl, hp⟩

theorem safe_firstChildOf (hw : w.tree.Sound) (n : NodeId) :
    (firstChildOf n).Safe w fun c u => u = w.tree ∧ u.parent c = some n := by
  refine safe_look_bind ?_
  cases hc : w.tree.firstChild n with
  | none => exact safe_look_bind safe_refuse
  | some c =>
    have hmem : c ∈ w.tree.children n := List.mem_of_head? hc
    exact safe_pure ⟨rfl, (hw.listed n c).mp hmem⟩

/-- A node is made without a parent. -/
theorem safe_make (hw : w.tree.Sound) (kind : Kind) (span : Span) :
    (make kind span).Safe w fun n u => n = w.tree.size ∧ u.size = w.tree.size + 1 ∧
      ∀ m, u.parent m = w.tree.parent m :=
  ⟨.step .refl (.push kind span false) (hw.push kind span false), rfl, Tree.size_push _ _,
    fun m => Tree.parent_push _ _ _ _ m⟩

theorem safe_appendChild (hw : w.tree.Sound) {p c : Nat} (hp : w.tree.parent p = none)
    (hplt : p < w.tree.size) (hclt : c < w.tree.size) (hne : c ≠ p) :
    (edit (·.appendChild p c)).Safe w fun _ u => w.tree.Moves u c (some p) := by
  refine safe_edit fun u hu => ?_
  have hapart : ¬ w.tree.Within c p := fun h => hne (Tree.eq_of_within_free hp h)
  obtain ⟨hs, hm⟩ := hw.appendChild hplt hclt hapart hu
  exact ⟨Tree.Mutates.edits (.appendChild hu) hs, hm⟩

/-- Nodes are put under one that has no parent. -/
theorem safe_appendAll (hw : w.tree.Sound) {p : Nat} {cs : List NodeId}
    (hp : w.tree.parent p = none) (hplt : p < w.tree.size)
    (hcs : ∀ c ∈ cs, c < w.tree.size ∧ c ≠ p) :
    (forIn cs PUnit.unit fun child _ => do
      edit (·.appendChild p child)
      pure (ForInStep.yield PUnit.unit) : Step PUnit).Safe w fun _ u =>
        u.size = w.tree.size ∧ (∀ m ∉ cs, u.parent m = w.tree.parent m) ∧
          ∀ c ∈ cs, u.parent c = some p := by
  induction cs generalizing w with
  | nil => exact safe_pure ⟨rfl, fun _ _ => rfl, by simp⟩
  | cons c cs ih =>
    obtain ⟨hc, hne⟩ := hcs c List.mem_cons_self
    rw [List.forIn_cons]
    refine Safe.bind hw (Safe.bind hw (safe_appendChild hw hp hplt hc hne) fun _ v _ hm =>
      safe_pure (Q := fun r u => r = ForInStep.yield PUnit.unit ∧ w.tree.Moves u c (some p))
        ⟨rfl, hm⟩) ?_
    rintro _ v hv ⟨rfl, hm⟩
    have hfree : v.tree.parent p = none := by rw [hm.parent, if_neg hne.symm, hp]
    have hsize := hm.size
    refine (ih hv hfree (by rw [hsize]; exact hplt) fun d hd => ?_).imp ?_
    · rw [hsize]
      exact hcs d (List.mem_cons_of_mem _ hd)
    · rintro _ u ⟨hu, hother, hall⟩
      refine ⟨hu.trans hsize, fun m hmem => ?_, List.forall_mem_cons.mpr ⟨?_, hall⟩⟩
      · rw [List.mem_cons, not_or] at hmem
        rw [hother m hmem.2, hm.parent, if_neg hmem.1]
      · by_cases hmem : c ∈ cs
        · exact hall c hmem
        · rw [hother c hmem, hm.parent, if_pos rfl]

/-- A node is made over others, without a parent. -/
theorem safe_makeOver (hw : w.tree.Sound) (kind : Kind) (span : Span) (cs : List NodeId)
    (hcs : ∀ c ∈ cs, c < w.tree.size) :
    (makeOver kind span cs).Safe w fun n u => n = w.tree.size ∧ u.size = w.tree.size + 1 ∧
      (∀ m ∉ cs, u.parent m = w.tree.parent m) ∧ ∀ c ∈ cs, u.parent c = some n := by
  refine Safe.bind hw (safe_make hw kind span) ?_
  rintro n v hv ⟨rfl, hsize, hparent⟩
  have hfree : v.tree.parent w.tree.size = none := by
    rw [hparent]
    exact Tree.parent_of_size_le (Nat.le_refl _)
  have hmore : w.tree.size < v.tree.size := by omega
  refine Safe.bind hv (safe_appendAll hv hfree hmore fun c hc => ?_) ?_
  · exact ⟨Nat.lt_trans (hcs c hc) hmore, Nat.ne_of_lt (hcs c hc)⟩
  · rintro _ u - ⟨hu, hother, hall⟩
    exact safe_pure ⟨rfl, hu.trans hsize, fun m hm => (hother m hm).trans (hparent m), hall⟩

end Step

end Hoist
