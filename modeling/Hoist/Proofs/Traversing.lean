import Hoist.Proofs.Covering
import Hoist.Proofs.Sessions

namespace Hoist

/-- Kinds of nodes that change the state of the program when they run. -/
inductive Kind.Writes : Kind → Prop
  | assign : Writes .assign
  | assignOp (op : BinaryOp) : Writes (.assignOp op)
  | increment (isDecrement isPostfix : Bool) : Writes (.increment isDecrement isPostfix)
  | delete : Writes (.unary .delete)
  | call : Writes .call
  | new : Writes .new
  | throw : Writes .throw

theorem Kind.writes_iff {kind : Kind} : kind.writes = true ↔ kind.Writes := by
  constructor
  · intro h
    unfold Kind.writes at h
    split at h <;> first | constructor | cases h
  · rintro (_ | _ | _ | _ | _ | _ | _) <;> rfl

theorem Kind.isFunction_eq_false_iff {kind : Kind} :
    kind.isFunction = false ↔ ∀ name params, kind ≠ .function name params := by
  cases kind <;> simp [Kind.isFunction]

namespace Tree

variable {t : Tree} {n m a : NodeId}

/-- Whether running the nodes below a stack of nodes may change the state of the program, where
children come onto the stack in some order. The budget bounds the number of nodes. -/
def sideEffectsIn (t : Tree) (order : List NodeId → List NodeId) : Nat → List NodeId → Bool
  | 0, _ => false
  | _, [] => false
  | budget + 1, n :: stack =>
    if (t.kind n).writes then true
    else if (t.kind n).isFunction then sideEffectsIn t order budget stack
    else sideEffectsIn t order budget (order (t.children n) ++ stack)

theorem sideEffectsIn_id (budget : Nat) (stack : List NodeId) :
    t.sideEffectsIn id budget stack = t.sideEffectsFrom budget stack := by
  fun_induction sideEffectsFrom t budget stack <;> simp_all [sideEffectsIn]

/-- A node runs when another one does: it is that node, or below it and in none of its functions. -/
def RunsWith (t : Tree) (n m : NodeId) : Prop :=
  Relation.ReflTransGen (fun c p => t.parent c = some p ∧ (t.kind p).isFunction = false) m n

theorem Sound.runsWith_iff (h : t.Sound) : t.RunsWith n m ↔
    m = n ∨ (t.kind n).isFunction = false ∧ ∃ c ∈ t.children n, t.RunsWith c m := by
  rw [RunsWith, Relation.ReflTransGen.cases_tail_iff]
  refine or_congr eq_comm ⟨?_, ?_⟩
  · rintro ⟨c, hc, hp, hf⟩
    exact ⟨hf, c, (h.listed n c).mpr hp, hc⟩
  · rintro ⟨hf, c, hc, hm⟩
    exact ⟨c, hm, (h.listed n c).mp hc, hf⟩

/-- Of two nodes above a third, one is above the other. -/
theorem within_or_below {c f : NodeId} (hc : t.Within c m) (hf : t.Below f m) :
    t.Within c f ∨ t.Below f c := by
  induction hc using Relation.ReflTransGen.head_induction_on with
  | refl => exact .inr hf
  | @head m p hp hc ih =>
    obtain ⟨q, hq, hf⟩ := below_cases hf
    obtain rfl : p = q := Option.some.inj (Eq.trans (Eq.symm hp) hq)
    rcases within_cases hf with rfl | hf
    · exact .inl hc
    · exact ih hf

/-- A child has more nodes above it than its parent. -/
theorem Sound.height_lt (h : t.Sound) {c : NodeId} (hc : c ∈ t.children n) :
    t.size - (t.ancestors c).length < t.size - (t.ancestors n).length := by
  have hp : t.parent c = some n := (h.listed n c).mp hc
  have hlength : (t.ancestors c).length ≤ t.size := by
    rw [Tree.ancestors, hp]
    exact length_le_size (h.nodup_ancestorsFrom _ n) fun a ha =>
      h.within_lt (within_of_mem_ancestorsFrom ha) (h.parent_lt hp)
  rw [h.ancestors_eq hp, List.length_cons] at hlength ⊢
  omega

/-- The nodes of a subtree as they are listed by going down into each child: a node, and then what
is listed for its children, from left to right. -/
def Sound.listing (h : t.Sound) (n : NodeId) : List NodeId :=
  n :: (t.children n).attach.flatMap fun c => h.listing c.1
termination_by t.size - (t.ancestors n).length
decreasing_by exact h.height_lt c.2

namespace Sound

variable (h : t.Sound)

include h

theorem listing_eq (n : NodeId) : h.listing n = n :: (t.children n).flatMap h.listing := by
  rw [listing, List.flatMap_def, List.flatMap_def, List.attach_map_val]

theorem listing_shows {b : Branch} (hb : t.Shows b) : h.listing b.id = b.ids := by
  induction b using Branch.induct with
  | node tag cs ih =>
    have hchildren : t.children tag.id = cs.map Branch.id := hb.children
    rw [listing_eq, Branch.id_node, Branch.ids, hchildren, List.flatMap_map]
    exact congrArg _ (List.flatMap_congr fun c hc => ih c hc (hb.child c hc))

/-- The walk with a stack lists what the walk that goes down into each child does. -/
theorem preorder_eq_listing (hn : n < t.size) : t.preorder n = h.listing n := by
  obtain ⟨z, b, o, rfl, hb⟩ := h.exists_plug hn
  rw [hb.preorder, h.listing_shows hb.shows]

theorem preorder_eq (hn : n < t.size) :
    t.preorder n = n :: (t.children n).flatMap t.preorder := by
  rw [h.preorder_eq_listing hn, listing_eq]
  exact congrArg _ (List.flatMap_congr fun c hc => (h.preorder_eq_listing (h.child_lt hc)).symm)

/-- The way down from a node comes to those from which the way up comes to it. -/
theorem mem_preorder (hn : n < t.size) : m ∈ t.preorder n ↔ t.Within n m := by
  constructor
  · intro hm
    obtain ⟨a, ha, hw⟩ := within_of_mem_preorderFrom (fun p c => (h.listed p c).mp) hm
    rwa [List.mem_singleton.mp ha] at hw
  · intro hw
    induction hw with
    | refl =>
      rw [h.preorder_eq hn]
      exact List.mem_cons_self
    | @tail c p hc hp ih =>
      rw [h.preorder_eq hn]
      exact List.mem_cons_of_mem _ (List.mem_flatMap.mpr
        ⟨c, (h.listed p c).mpr hp, ih (lt_of_parent hp)⟩)

/-- What runs with a node is in its subtree, with no function of the subtree above it. -/
theorem runsWith_iff_preorder (hn : n < t.size) : t.RunsWith n m ↔ m ∈ t.preorder n ∧
    ∀ f ∈ t.preorder n, f ∈ t.ancestors m → (t.kind f).isFunction = false := by
  simp only [h.mem_preorder hn, h.mem_ancestors]
  constructor
  · intro hr
    induction hr with
    | refl => exact ⟨.refl m, fun f hw hb => absurd (within_of_below hb hw) (h.acyclic m)⟩
    | @tail c p hr hp ih =>
      obtain ⟨hw, hfunctions⟩ := ih (lt_of_parent hp.1)
      refine ⟨hw.trans ((Within.refl p).of_parent hp.1), fun f hf hb => ?_⟩
      rcases within_or_below hw hb with hc | hc
      · exact hfunctions f hc hb
      · -- A function above the child is the parent itself, since it is not above that too.
        obtain ⟨q, hq, hc⟩ := below_cases hc
        obtain rfl : p = q := Option.some.inj (hp.1.symm.trans hq)
        rcases within_cases hc with rfl | hc
        · exact hp.2
        · exact absurd (within_of_below hc hf) (h.acyclic p)
  · rintro ⟨hw, hfunctions⟩
    induction hw with
    | refl => exact .refl
    | @tail c p hw hp ih =>
      have hup : t.Within p c := (Within.refl p).of_parent hp
      refine .tail (ih (lt_of_parent hp) fun f hf => hfunctions f (hf.trans hup)) ⟨hp, ?_⟩
      exact hfunctions p (.refl p) (below_of_within hw (below_of_parent hp (.refl p)))

theorem length_preorder_le (hn : n < t.size) : (t.preorder n).length ≤ t.size := by
  refine length_le_size (h.nodup_preorderFrom _ [n] (by simp)) fun m hm => ?_
  by_contra hlt
  have hw := (h.mem_preorder hn).mp hm
  rcases within_cases hw with rfl | hb
  · exact hlt hn
  · obtain ⟨p, hp, -⟩ := below_cases hb
    exact hlt (lt_of_parent hp)

/-- A walk that has enough budget finds exactly the nodes that change the state when the stack runs,
in whatever order children come onto the stack. -/
theorem sideEffectsIn_iff {order : List NodeId → List NodeId} (ho : ∀ ns, (order ns).Perm ns)
    {budget : Nat} {stack : List NodeId} (hs : ∀ n ∈ stack, n < t.size)
    (hb : (stack.flatMap t.preorder).length ≤ budget) :
    t.sideEffectsIn order budget stack = true ↔
      ∃ n ∈ stack, ∃ m, t.RunsWith n m ∧ (t.kind m).writes = true := by
  induction budget generalizing stack with
  | zero =>
    cases stack with
    | nil => simp [sideEffectsIn]
    | cons n stack =>
      rw [List.flatMap_cons, h.preorder_eq (hs n List.mem_cons_self)] at hb
      simp at hb
  | succ budget ih =>
    cases stack with
    | nil => simp [sideEffectsIn]
    | cons n stack =>
      obtain ⟨hn, hstack⟩ := List.forall_mem_cons.mp hs
      rw [List.flatMap_cons, h.preorder_eq hn, List.cons_append, List.length_cons,
        List.length_append] at hb
      rw [sideEffectsIn, List.exists_mem_cons_iff]
      split
      · rename_i hwrites
        exact iff_of_true rfl (.inl ⟨n, .refl, hwrites⟩)
      · rename_i hwrites
        split
        · rename_i hfunction
          have hself : ¬ ∃ m, t.RunsWith n m ∧ (t.kind m).writes = true := by
            rintro ⟨m, hm, hw⟩
            rcases h.runsWith_iff.mp hm with rfl | ⟨hf, -⟩
            · exact hwrites hw
            · rw [hfunction] at hf
              cases hf
          rw [ih hstack (by omega), or_iff_right hself]
        · rename_i hfunction
          have hchildren : ∀ c ∈ order (t.children n), c < t.size := fun c hc =>
            h.child_lt ((ho _).mem_iff.mp hc)
          have hlength := ((ho (t.children n)).flatMap_right t.preorder).length_eq
          rw [ih]
          · simp only [List.mem_append, or_and_right, exists_or, (ho _).mem_iff]
            refine or_congr_left ⟨?_, ?_⟩
            · rintro ⟨c, hc, m, hm, hw⟩
              exact ⟨m, h.runsWith_iff.mpr (.inr ⟨by simpa using hfunction, c, hc, hm⟩), hw⟩
            · rintro ⟨m, hm, hw⟩
              rcases h.runsWith_iff.mp hm with rfl | ⟨-, c, hc, hm⟩
              · exact absurd hw hwrites
              · exact ⟨c, hc, m, hm, hw⟩
          · exact fun c hc => (List.mem_append.mp hc).elim (hchildren c) (hstack c)
          · rw [List.flatMap_append, List.length_append]
            omega

end Sound

/-- The ways of going through a subtree agree. Going down with a stack lists the nodes that going
down into each child lists, in the same order and each once, and these are the nodes from which the
way up comes to the root of the subtree. Running a node may change the state of the program exactly
where a node of its subtree does so that is below no function of the subtree. None of these walks
needs more turns than the tree has nodes, and the last one finds the same in whatever order it goes
through children. -/
theorem walks_agree (h : t.Sound) (hn : n < t.size) :
    t.preorder n = h.listing n ∧ (t.preorder n).Nodup ∧
    (∀ m, m ∈ t.preorder n ↔ t.isDescendantOrSelf m n = true) ∧
    (t.hasSideEffects n = true ↔ ∃ m ∈ t.preorder n, (t.kind m).Writes ∧
      ∀ f ∈ t.preorder n, f ∈ t.ancestors m → ∀ name params, t.kind f ≠ .function name params) ∧
    ∀ more, t.preorderFrom (t.size + more) [n] = t.preorder n ∧
      t.ancestorsFrom (t.size + more) (t.parent n) = t.ancestors n ∧
      ∀ order : List NodeId → List NodeId, (∀ ns, (order ns).Perm ns) →
        t.sideEffectsIn order (t.size + more) [n] = t.hasSideEffects n := by
  have heffects : ∀ {order : List NodeId → List NodeId}, (∀ ns, (order ns).Perm ns) → ∀ more,
      (t.sideEffectsIn order (t.size + more) [n] = true ↔
        ∃ m, t.RunsWith n m ∧ (t.kind m).writes = true) := by
    intro order ho more
    have hlength := h.length_preorder_le hn
    rw [h.sideEffectsIn_iff ho (by simpa using hn) (by simpa using by omega)]
    simp
  have hown : t.hasSideEffects n = true ↔ ∃ m, t.RunsWith n m ∧ (t.kind m).writes = true := by
    rw [Tree.hasSideEffects, ← sideEffectsIn_id]
    exact heffects (fun _ => .refl _) 0
  refine ⟨h.preorder_eq_listing hn, h.nodup_preorderFrom _ [n] (by simp), fun m => ?_, ?_,
    fun more => ⟨h.preorderFrom_size more hn, ?_, fun order ho => ?_⟩⟩
  · rw [h.mem_preorder hn, h.isDescendantOrSelf_iff]
  · rw [hown]
    refine exists_congr fun m => ?_
    rw [h.runsWith_iff_preorder hn, Kind.writes_iff, and_right_comm, and_assoc]
    simp only [Kind.isFunction_eq_false_iff]
  · cases hp : t.parent n with
    | none => rw [Tree.ancestors_of_free hp, Tree.ancestorsFrom_none]
    | some p => rw [h.ancestorsFrom_size more (h.parent_lt hp), Tree.ancestors, hp]
  · rw [Bool.eq_iff_iff, heffects ho, hown]

/-- A call that stands in a function is listed with it but does not run with it. -/
theorem walks_agree_of_function : ∃ (t : Tree) (h : t.Sound),
    readTree "m.js" "x = function () \x7b f(); \x7d;" = .ok t ∧ 6 < t.size ∧
      h.listing 6 = [6, 2, 5, 4, 3] ∧ (4 ∈ t.preorder 6 ↔ t.isDescendantOrSelf 4 6 = true) ∧
        t.kind 4 = .call ∧ t.hasSideEffects 6 = false ∧
          (t.hasSideEffects 6 = true ↔ ∃ m ∈ t.preorder 6, (t.kind m).Writes ∧
            ∀ f ∈ t.preorder 6, f ∈ t.ancestors m → ∀ name params,
              t.kind f ≠ .function name params) := by
  have hrun : (readTree "m.js" "x = function () \x7b f(); \x7d;").toOption.any (fun t =>
      6 < t.size ∧ t.preorder 6 = [6, 2, 5, 4, 3] ∧ t.kind 4 = .call ∧
        t.hasSideEffects 6 = false) = true := by decide +kernel
  obtain ⟨t, ht, hn, hlisted, hcall, heffects⟩ := exists_of_toOption_any hrun
  have h := sound_of_readTree ht
  obtain ⟨hlisting, -, hmem, hiff, -⟩ := walks_agree h hn
  exact ⟨t, h, ht, hn, hlisting.symm.trans hlisted, hmem 4, hcall, heffects, hiff⟩

end Tree

end Hoist
