import Hoist.Layout
import Hoist.Proofs.MethodSplitting

namespace Hoist

/-- What holds of a node between an expression that is always evaluated and its statement. -/
structure Frame.Passable (f : Frame) : Prop where
  level : f.tag.kind.level?.isSome
  conditional : f.tag.kind = .conditional ∨ f.tag.kind = .and_ ∨ f.tag.kind = .or_ → f.left = []
  assignment : f.tag.kind = .assign ∨ (∃ op, f.tag.kind = .assignOp op) → f.left ≠ [] →
    ∃ target form, f.left = [target] ∧ f.right = [] ∧ target.Target form
  member : ∀ c ∈ f.left, c.kind.isMember → c.children ≠ []

theorem Branch.eq_target_of_cons {target : Branch} {rest right : List Branch}
    (h : ∃ b form, target :: rest = [b] ∧ right = [] ∧ b.Target form) :
    rest = [] ∧ right = [] ∧ ∃ form, target.Target form := by
  obtain ⟨_, form, hleft, hright, ht⟩ := h
  obtain ⟨rfl, rfl⟩ := List.cons.inj hleft
  exact ⟨rfl, hright, form, ht⟩

/-- An assignment on the way has its target in front of its value and nothing else. -/
theorem Frame.Passable.target {tag : Tag} {target : Branch} {rest right : List Branch}
    (h : Frame.Passable ⟨tag, target :: rest, right⟩)
    (hk : tag.kind = .assign ∨ ∃ op, tag.kind = .assignOp op) :
    rest = [] ∧ right = [] ∧ ∃ form, target.Target form :=
  Branch.eq_target_of_cons (h.assignment hk (List.cons_ne_nil _ _))

namespace Tree

variable {t : Tree}

theorem role_ne_root_boundary {n : NodeId} (h : (t.kind n).level?.isSome) :
    t.role n ≠ .root ∧ t.role n ≠ .boundary := by
  rw [Tree.role]
  cases hk : t.kind n <;> rw [hk] at h
  case assign | assignOp =>
    simp only [assignmentRole]
    split
    · simp
    · split <;> simp
  all_goals first | exact absurd h Bool.false_ne_true | simp

/-- The first child of a node around a branch. -/
theorem Holds.firstChild_frame {f : Frame} {z : List Frame} {b : Branch} {o : List Branch}
    (h : t.Holds (plug (f :: z) b :: o)) :
    t.firstChild f.tag.id = some ((f.left ++ [b]).head (by simp)).id := by
  rw [Tree.firstChild, Tree.children, h.node_frame, Frame.stored]
  cases f.left <;> rfl

theorem Holds.children_frame {f : Frame} {z : List Frame} {b : Branch} {o : List Branch}
    (h : t.Holds (plug (f :: z) b :: o)) :
    t.children f.tag.id = f.left.map Branch.id ++ b.id :: f.right.map Branch.id := by
  rw [Tree.children, h.node_frame]
  rfl

theorem Holds.kind_frame {f : Frame} {z : List Frame} {b : Branch} {o : List Branch}
    (h : t.Holds (plug (f :: z) b :: o)) : t.kind f.tag.id = f.tag.kind := by
  rw [Tree.kind, h.node_frame]
  rfl

/-- The children before a branch. -/
theorem Holds.takeWhile_children {f : Frame} {z : List Frame} {b : Branch} {o : List Branch}
    (h : t.Holds (plug (f :: z) b :: o)) (k : Nat) (hk : k ≤ f.left.length) :
    ((t.children f.tag.id).drop k).takeWhile (· ≠ b.id) = (f.left.drop k).map Branch.id := by
  have hn := id_notMem_left h
  rw [h.children_frame, List.drop_append_of_le_length (by simpa using hk), ← List.map_drop,
    List.takeWhile_append_of_pos]
  · simp
  · intro n hm
    have hm' : n ∈ f.left.map Branch.id := by
      obtain ⟨c, hc, rfl⟩ := List.mem_map.mp hm
      exact List.mem_map_of_mem (List.mem_of_mem_drop hc)
    simpa using fun he : n = b.id => hn (he ▸ hm')

end Tree

namespace Step

variable {o : List Branch}

/-- Nothing is taken out of a node whose first child is the one in question. -/
theorem leads_exposeIn_first (s : PassState) {supply : Supply} {tag : Tag} {right : List Branch}
    {z : List Frame} {b : Branch} (hl : tag.kind.level?.isSome) :
    (exposeIn s tag.id b.id).Leads supply (plug (⟨tag, [], right⟩ :: z) b :: o) (tag.id, s) supply
      (plug (⟨tag, [], right⟩ :: z) b :: o) := by
  have hfirst : (firstChildOf tag.id).Leads supply (plug (⟨tag, [], right⟩ :: z) b :: o) b.id
      supply (plug (⟨tag, [], right⟩ :: z) b :: o) :=
    leads_firstChildOf (b := .node tag (b :: right)) rfl rfl
  have hbefore : (extractBefore s tag.id 0 b.id).Leads supply
      (plug (⟨tag, [], right⟩ :: z) b :: o) s supply (plug (⟨tag, [], right⟩ :: z) b :: o) :=
    .bind (leads_look fun t ht _ => ht.takeWhile_children 0 (Nat.zero_le _)) leads_pure
  refine leads_look_bind fun t ht _ => ?_
  have hk : t.kind tag.id = tag.kind := ht.kind_frame
  have hr := Tree.role_ne_root_boundary (t := t) (n := tag.id) (by rw [hk]; exact hl)
  split
  · refine .bind (leads_look fun t ht _ => ht.firstChild_frame) ?_
    rw [if_neg (by simp)]
    exact leads_pure
  · exact leads_pure
  · refine .bind ?_ leads_pure
    refine .bind hfirst ?_
    rw [if_pos rfl]
    exact leads_pure
  · refine .bind hfirst ?_
    rw [if_pos rfl]
    exact leads_pure
  · refine .bind hfirst ?_
    rw [if_pos rfl]
    exact leads_pure
  · exact .bind hbefore leads_pure
  · exact .bind hbefore leads_pure
  · exact absurd ‹_› hr.1
  · exact absurd ‹_› hr.2

/-- Taking out what stands before a branch, from the first or the second child on. -/
theorem leads_extractBefore (s : Pass) {tag : Tag} (kept : List Branch) {left right : List Branch} {b : Branch}
    {z : List Frame} {p : Spot} {statement : NodeId}
    (hs : ∀ b : Branch, (plug z b).id = statement) :
    (extractBefore (s.state statement) tag.id kept.length b.id).Leads s.supply
      (plug (⟨tag, kept ++ left, right⟩ :: z ++ p.around s.taken) b :: o)
      ((s.takeAll left).2.state statement) (s.takeAll left).2.supply
      (plug (⟨tag, kept ++ (s.takeAll left).1, right⟩ :: z ++ p.around (s.takeAll left).2.taken) b
        :: o) := by
  have h := leads_extractAll (o := o) s tag left (b :: right)
    (p := p) kept fun _ _ => hs _
  refine .bind (leads_look fun t ht _ => ht.takeWhile_children _ (by simp)) ?_
  rw [List.drop_left]
  exact h

/-- Taking out what a node evaluates before the branch in its place does what the pass says. -/
theorem leads_exposeIn (s : Pass) {f : Frame} {b : Branch} {z : List Frame} {p : Spot}
    {statement : NodeId} (hf : f.Passable) (hs : ∀ b : Branch, (plug z b).id = statement) :
    (exposeIn (s.state statement) f.tag.id b.id).Leads s.supply
      (plug (f :: z ++ p.around s.taken) b :: o)
      ((plug (s.exposeFrame f).1 b).id, (s.exposeFrame f).2.state statement)
      (s.exposeFrame f).2.supply
      (plug ((s.exposeFrame f).1 ++ z ++ p.around (s.exposeFrame f).2.taken) b :: o) := by
  obtain ⟨tag, left, right⟩ := f
  cases left with
  | nil => exact leads_exposeIn_first _ hf.level
  | cons first rest =>
    refine leads_look_bind fun t ht _ => ?_
    have hk : t.kind tag.id = tag.kind := ht.kind_frame
    have hfirst : t.firstChild tag.id = some first.id := ht.firstChild_frame
    have hfk : t.kind first.id = first.kind :=
      (Tree.Holds.shows (b := first) (z := ⟨tag, [], rest ++ b :: right⟩ :: z ++ p.around s.taken)
        ht).kind
    have hne : first.id ≠ b.id := by
      intro he
      have hm := Tree.id_notMem_left ht
      rw [List.map_cons, he] at hm
      exact hm List.mem_cons_self
    have hplain : (do return (tag.id, ← extractBefore (s.state statement) tag.id 0 b.id) :
        Step (NodeId × PassState)).Leads s.supply
        (plug (⟨tag, first :: rest, right⟩ :: z ++ p.around s.taken) b :: o)
        ((plug (s.exposeLeft ⟨tag, first :: rest, right⟩).1 b).id,
          (s.exposeLeft ⟨tag, first :: rest, right⟩).2.state statement)
        (s.exposeLeft ⟨tag, first :: rest, right⟩).2.supply
        (plug ((s.exposeLeft ⟨tag, first :: rest, right⟩).1 ++ z ++
          p.around (s.exposeLeft ⟨tag, first :: rest, right⟩).2.taken) b :: o) :=
      .bind (leads_extractBefore s [] hs) leads_pure
    have hl := hf.level
    have hassign : ∀ compound, tag.kind = .assign ∨ (∃ op, tag.kind = .assignOp op) →
        ∃ form, first.Target form ∧ rest = [] ∧ right = [] ∧
          t.assignmentRole tag.id compound = .assignment form compound := by
      intro compound h
      obtain ⟨rfl, hright, form, htarget⟩ := hf.target h
      refine ⟨form, htarget, rfl, hright, ?_⟩
      simp only [Tree.assignmentRole, hfirst, hfk, htarget.form]
    rw [Tree.role, hk, Pass.exposeFrame]
    simp only at hl
    cases hkind : tag.kind with
    | assign =>
      obtain ⟨form, htarget, rfl, rfl, hrole⟩ := hassign none (.inl hkind)
      simp only [hrole]
      cases htarget with
      | name h => exact leads_pure
      | property h object =>
        exact .bind (leads_extractTargetParts s (.property h object) hs hne) leads_pure
      | element h object key =>
        exact .bind (leads_extractTargetParts s (.element h object key) hs hne) leads_pure
    | assignOp op =>
      obtain ⟨form, htarget, rfl, rfl, hrole⟩ := hassign (some op) (.inr ⟨op, hkind⟩)
      simp only [hrole]
      exact leads_splitCompound s htarget hs hne
    | call =>
      have hm : t.isMember first.id = first.kind.isMember := by rw [Tree.isMember, hfk]
      simp only [hfirst, Option.any_some, hm]
      cases hmember : first.kind.isMember with
      | false => exact hplain
      | true =>
        obtain ⟨part, children⟩ := first
        obtain ⟨object, keys, hkeys⟩ :=
          List.exists_cons_of_ne_nil (hf.member _ List.mem_cons_self hmember)
        obtain rfl : children = object :: keys := hkeys
        refine .bind (leads_firstChildOf (b := .node tag (_ :: rest ++ b :: right))
          rfl rfl) ?_
        rw [if_neg hne]
        refine .bind (leads_extractBefore s [.node part (object :: keys)] hs) ?_
        refine .bind (leads_mustPrecede (b := .node part (object :: keys)) (z := ⟨tag, [],
          (s.takeAll rest).1 ++ b :: right⟩ :: z ++ p.around (s.takeAll rest).2.taken)
          (s.takeAll rest).2.effects rfl) ?_
        simp only [Branch.children_node]
        by_cases hneed : Branch.mustPrecede (s.takeAll rest).2.supply.constants
            (s.takeAll rest).2.effects (.node part (object :: keys))
        · simp only [hneed, ↓reduceIte]
          exact leads_splitMethodCall (s.takeAll rest).2 hkind hmember hs
        · simp only [hneed, Bool.false_eq_true, ↓reduceIte]
          exact leads_pure
    | conditional => exact absurd (hf.conditional (.inl hkind)) (by simp)
    | and_ => exact absurd (hf.conditional (.inr (.inl hkind))) (by simp)
    | or_ => exact absurd (hf.conditional (.inr (.inr hkind))) (by simp)
    | _ => first | exact hplain | (rw [hkind] at hl; exact absurd hl Bool.false_ne_true)

end Step

end Hoist
