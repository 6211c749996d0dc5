import Hoist.Proofs.Branch
import Hoist.Proofs.Meaning

namespace Hoist

universe u

variable {Value : Type u} {m : Machine Value} {p : String} {n : Nat} {w w' w'' : World Value}

/-- Worlds that differ at most in temporaries that are made later. -/
structure Agree (p : String) (n : Nat) (w w' : World Value) : Prop where
  store : ∀ x, Known p n x → w.store x = w'.store x
  calls : w.calls = w'.calls

/-- Results that differ at most in temporaries that are made later. -/
structure Alike (p : String) (n : Nat) (r r' : Value × World Value) : Prop where
  value : r.1 = r'.1
  world : Agree p n r.2 r'.2

/-- Two actions do the same where worlds agree. -/
def Matches (p : String) (n : Nat) (a b : Effect Value) : Prop :=
  ∀ w w', Agree p n w w' → Alike p n (a w) (b w')

theorem Agree.refl (w : World Value) : Agree p n w w := ⟨fun _ _ => rfl, rfl⟩

theorem Agree.trans (h : Agree p n w w') (h' : Agree p n w' w'') : Agree p n w w'' :=
  ⟨fun x hx => (h.store x hx).trans (h'.store x hx), h.calls.trans h'.calls⟩

theorem Agree.mono {k : Nat} (h : Agree p k w w') (hn : n ≤ k) : Agree p n w w' :=
  ⟨fun x hx => h.store x (hx.mono hn), h.calls⟩

theorem Agree.assign (h : Agree p n w w') (x : String) (v : Value) :
    Agree p n (w.assign x v) (w'.assign x v) := by
  refine ⟨fun y hy => ?_, h.calls⟩
  by_cases he : y = x
  · subst he
    simp
  · rw [w.assign_store_of_ne he, w'.assign_store_of_ne he]
    exact h.store y hy

theorem Agree.update (h : Agree p n w w') (target : Option String) (value : Option Value) :
    Agree p n (w.update target value) (w'.update target value) := by
  cases target with
  | none => exact h
  | some x =>
    cases value with
    | none => exact h
    | some v => exact h.assign x v

/-- A temporary that is made later can be assigned anything. -/
theorem Agree.assign_right (h : Agree p n w w') {x : String} (hx : ¬ Known p n x) (v : Value) :
    Agree p n w (w'.assign x v) := by
  refine ⟨fun y hy => ?_, h.calls⟩
  have hne : y ≠ x := fun he => hx (he ▸ hy)
  rw [w'.assign_store_of_ne hne]
  exact h.store y hy

theorem Agree.visible (h : Agree p n w w') : w.visible m p = w'.visible m p := by
  funext x
  unfold World.visible
  cases hx : isReserved p x with
  | true => rfl
  | false => exact h.store x (known_of_not_reserved hx)

/-- What a call does is alike, since it sees no temporaries. -/
theorem Agree.perform (h : Agree p n w w') (callee : Value) (arguments : List Value) :
    Alike p n (m.perform p callee arguments w) (m.perform p callee arguments w') := by
  unfold Machine.perform
  rw [h.visible]
  refine ⟨rfl, fun x hx => ?_, congrArg (· ++ [(callee, arguments)]) h.calls⟩
  dsimp only
  split
  · exact h.store x hx
  · rfl

namespace Effect

theorem inOrder_append (as bs : List (Effect Value)) (w : World Value) :
    inOrder (as ++ bs) w = ((inOrder as w).1 ++ (inOrder bs (inOrder as w).2).1,
      (inOrder bs (inOrder as w).2).2) := by
  induction as generalizing w with
  | nil => rfl
  | cons a as ih => simp [inOrder, ih]

theorem inOrder_alike {as bs : List (Effect Value)} (h : List.Forall₂ (Matches p n) as bs)
    (hw : Agree p n w w') :
    (inOrder as w).1 = (inOrder bs w').1 ∧ Agree p n (inOrder as w).2 (inOrder bs w').2 := by
  induction h generalizing w w' with
  | nil => exact ⟨rfl, hw⟩
  | cons h _ ih =>
    have hfirst := h w w' hw
    obtain ⟨hvalues, hworld⟩ := ih hfirst.world
    refine ⟨?_, hworld⟩
    simp only [inOrder]
    rw [hfirst.value, hvalues]

end Effect

namespace Kind

variable {kind : Kind} {target : Option String}

theorem conclude_alike (hk : ∀ x, kind = .name x → Known p n x) (values : List Value)
    (hw : Agree p n w w') :
    Alike p n (kind.conclude m p target values w) (kind.conclude m p target values w') := by
  unfold conclude
  split
  · rename_i x
    refine ⟨?_, hw⟩
    rw [hw.store x (hk x rfl)]
  · exact hw.perform _ _
  · exact ⟨rfl, hw.update _ _⟩

/-- What runs after the first part is one of the others. -/
theorem chosen_forall₂ {α β : Type u} {R : α → β → Prop} {as : List α} {bs : List β} (kind : Kind)
    (h : List.Forall₂ R as bs) (isTrue : Bool) :
    (kind.chosen isTrue as = none ∧ kind.chosen isTrue bs = none) ∨
      ∃ a b, kind.chosen isTrue as = some a ∧ kind.chosen isTrue bs = some b ∧ R a b := by
  have hat : ∀ i : Nat, (as[i]? = none ∧ bs[i]? = none) ∨
      ∃ a b, as[i]? = some a ∧ bs[i]? = some b ∧ R a b := by
    induction h with
    | nil => simp
    | cons hr _ ih =>
      intro i
      cases i with
      | zero => exact .inr ⟨_, _, rfl, rfl, hr⟩
      | succ i => simpa using ih i
  unfold chosen
  split
  · exact hat 0
  · exact hat 0
  · exact hat 0
  · exact hat 0
  · exact hat 1
  · exact hat 1
  · exact .inl ⟨rfl, rfl⟩

/-- A node whose first part runs alike runs alike. -/
theorem run_cons {first first' : Effect Value} {rest rest' : List (Effect Value)}
    (hk : ∀ x, kind = .name x → Known p n x) (hassign : kind ≠ .assign)
    (hfirst : Alike p n (first w) (first' w')) (hrest : List.Forall₂ (Matches p n) rest rest') :
    Alike p n (kind.run m p target (first :: rest) w) (kind.run m p target (first' :: rest') w') := by
  unfold run
  cases kind.isSelective with
  | true =>
    rw [if_pos rfl, if_pos rfl]
    dsimp only
    rw [hfirst.value]
    rcases chosen_forall₂ kind hrest (m.truthy (first' w').1) with
      ⟨ha, hb⟩ | ⟨a, b, ha, hb, hab⟩
    · rw [ha, hb]
      exact hfirst
    · rw [ha, hb]
      exact hab _ _ hfirst.world
  | false =>
    simp only [Bool.false_eq_true, if_false, if_neg hassign, Effect.inOrder]
    obtain ⟨hvalues, hworld⟩ := Effect.inOrder_alike hrest hfirst.world
    rw [hfirst.value, hvalues]
    exact conclude_alike hk _ hworld

/-- A node whose parts run alike runs alike. -/
theorem run_matches {parts parts' : List (Effect Value)} (hk : ∀ x, kind = .name x → Known p n x)
    (h : List.Forall₂ (Matches p n) parts parts') :
    Matches p n (kind.run m p target parts) (kind.run m p target parts') := by
  intro w w' hw
  by_cases hassign : kind = .assign
  · subst hassign
    have htail : List.Forall₂ (Matches p n) parts.tail parts'.tail := by
      cases h with
      | nil => exact .nil
      | cons _ hrest => exact hrest
    obtain ⟨hvalues, hworld⟩ := Effect.inOrder_alike htail hw
    simp only [run, isSelective, Bool.false_eq_true, if_false, if_true]
    rw [hvalues]
    exact conclude_alike hk _ hworld
  · cases h with
    | nil =>
      unfold run
      split
      · exact ⟨rfl, hw⟩
      · simp only [Effect.inOrder]
        exact conclude_alike hk _ hw
    | cons hfirst hrest => exact run_cons hk hassign (hfirst w w' hw) hrest

end Kind

/-- The name that the first of several branches is, if it is one. -/
def firstName (cs : List Branch) : Option String := cs.head?.bind fun c => c.kind.name?

/-- Runs a branch. -/
def Branch.run (m : Machine Value) (p : String) (b : Branch) : Effect Value := b.shape.run m p

theorem run_node (tag : Tag) (cs : List Branch) : (Branch.node tag cs).run m p =
    tag.kind.run m p (firstName cs) (cs.map (Branch.run m p)) := by
  have hname : ((cs.map Branch.shape).head?.bind fun s => s.kind.name?) = firstName cs := by
    cases cs with
    | nil => rfl
    | cons c cs =>
      obtain ⟨tag, children⟩ := c
      rw [List.map_cons, Branch.shape]
      rfl
  rw [Branch.run, Branch.shape, Shape.run, hname, List.map_map]
  rfl

end Hoist
