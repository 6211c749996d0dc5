import Hoist.Proofs.Relocating

namespace Hoist

namespace Tree

variable {t u : Tree} {n p : NodeId} {left right cs ds : List NodeId}
  {owner other : NodeId → Option NodeId}

/-- The same nodes, where one has other children and each has the parent that is given to it. -/
def rewired (t : Tree) (p : NodeId) (cs : List NodeId) (owner : NodeId → Option NodeId) : Tree :=
  ⟨t.nodes.mapIdx fun m node =>
    { node with parent := owner m, children := if m = p then cs else node.children }⟩

@[simp] theorem size_rewired : (t.rewired p cs owner).size = t.size := Array.size_mapIdx

theorem node_rewired (t : Tree) (p : NodeId) (cs : List NodeId) (owner : NodeId → Option NodeId)
    (m : NodeId) : (t.rewired p cs owner).node m =
      if m < t.size then
        { t.node m with parent := owner m, children := if m = p then cs else t.children m }
      else t.node m := by
  simp only [node, rewired, children, size, Array.getElem?_mapIdx]
  by_cases hm : m < t.nodes.size <;> simp [hm]

/-- Trees are equal where all their nodes are. -/
theorem ext_node (hs : t.size = u.size) (h : ∀ m < t.size, t.node m = u.node m) : t = u := by
  obtain ⟨ts⟩ := t
  obtain ⟨us⟩ := u
  refine congrArg Tree.mk (Array.ext hs fun m ht hu => ?_)
  have hm := h m ht
  simpa [node, ht, hu] using hm

theorem eq_rewired_iff (hs : u.size = t.size) : u = t.rewired p cs owner ↔ ∀ m < t.size,
    u.node m =
      { t.node m with parent := owner m, children := if m = p then cs else t.children m } := by
  constructor
  · rintro rfl m hm
    rw [node_rewired, if_pos hm]
  · intro h
    refine ext_node (hs.trans size_rewired.symm) fun m hm => ?_
    have hlt : m < t.size := hs ▸ hm
    rw [node_rewired, if_pos hlt, h m hlt]

/-- What was changed does not count where it is changed again. -/
theorem rewired_rewired : (t.rewired p cs owner).rewired p ds other = t.rewired p ds other := by
  refine (eq_rewired_iff (by simp)).mpr fun m hm => ?_
  rw [node_rewired, if_pos (by simpa using hm), children, node_rewired, if_pos hm]
  by_cases hp : m = p <;> simp [hp]

theorem rewired_congr (h : ∀ m < t.size, owner m = other m) :
    t.rewired p cs owner = t.rewired p cs other := by
  refine (eq_rewired_iff (by simp)).mpr fun m hm => ?_
  rw [node_rewired, if_pos hm, h m hm]

theorem rewired_self : t.rewired p (t.children p) t.parent = t := by
  refine ((eq_rewired_iff rfl).mpr fun m hm => ?_).symm
  by_cases hp : m = p
  · rw [if_pos hp, ← hp]
    rfl
  · rw [if_neg hp]
    rfl

/-- What was changed is back where the children and the parents are. -/
theorem rewired_back (hcs : t.children p = cs) (ho : ∀ m < t.size, owner m = t.parent m) :
    (t.rewired p ds other).rewired p cs owner = t := by
  rw [rewired_rewired, rewired_congr ho, ← hcs, rewired_self]

theorem children_rewired (hp : p < t.size) : (t.rewired p cs owner).children p = cs := by
  rw [children, node_rewired, if_pos hp, if_pos rfl]

theorem parent_rewired {m : NodeId} (hm : m < t.size) :
    (t.rewired p cs owner).parent m = owner m := by
  rw [parent, node_rewired, if_pos hm]

theorem setParent_rewired (n : NodeId) (q : Option NodeId) :
    (t.rewired p cs owner).setParent n q = t.rewired p cs (Function.update owner n q) := by
  refine (eq_rewired_iff (by simp)).mpr fun m hm => ?_
  rw [node_setParent, node_rewired, if_pos hm, size_rewired]
  by_cases hn : n = m
  · rw [if_pos ⟨hn, hm⟩, hn, Function.update_self]
  · rw [if_neg fun hc => hn hc.1, Function.update_of_ne (Ne.symm hn)]

theorem mapChildren_rewired (f : List NodeId → List NodeId) :
    (t.rewired p cs owner).mapChildren p f = t.rewired p (f cs) owner := by
  refine (eq_rewired_iff (by simp)).mpr fun m hm => ?_
  rw [node_mapChildren, node_rewired, if_pos hm, size_rewired]
  by_cases hp : p = m
  · rw [if_pos ⟨hp, hm⟩, if_pos hp.symm, if_pos hp.symm]
  · rw [if_neg fun hc => hp hc.1, if_neg (Ne.symm hp), if_neg (Ne.symm hp)]

theorem attach_eq_rewired (t : Tree) (p index c : NodeId) : t.attach p index c =
    t.rewired p ((t.children p).insertIdx index c) (Function.update t.parent c (some p)) := by
  conv_lhs => rw [← rewired_self (t := t) (p := p)]
  rw [attach, setParent_rewired, mapChildren_rewired]

/-- The parents without those of some nodes. -/
def without (owner : NodeId → Option NodeId) (ns : List NodeId) (m : NodeId) : Option NodeId :=
  if m ∈ ns then none else owner m

@[simp] theorem without_nil : without owner [] = owner := by
  funext m
  simp [without]

theorem without_update (c : NodeId) (ns : List NodeId) :
    without (Function.update owner c none) ns = without owner (c :: ns) := by
  funext m
  by_cases hm : m = c <;> by_cases hn : m ∈ ns <;> simp [without, hm, hn]

theorem foldl_setParent_rewired (ns : List NodeId) :
    ns.foldl (fun t c => t.setParent c none) (t.rewired p cs owner) =
      t.rewired p cs (without owner ns) := by
  induction ns generalizing owner with
  | nil => simp
  | cons c ns ih => rw [List.foldl_cons, setParent_rewired, ih, without_update]

theorem detachChildren_eq_rewired (t : Tree) (n : NodeId) :
    t.detachChildren n = t.rewired n [] (without t.parent (t.children n)) := by
  have hempty : (t.mapChildren n fun _ => []) = t.rewired n [] t.parent := by
    conv_lhs => rw [← rewired_self (t := t) (p := n)]
    rw [mapChildren_rewired]
  rw [detachChildren, hempty, foldl_setParent_rewired]

theorem appendChild_eq_rewired {c : NodeId} (hc : t.parent c = none) : t.appendChild p c =
    .ok (t.rewired p (t.children p ++ [c]) (Function.update t.parent c (some p))) := by
  rw [appendChild, requireFree_of_node hc, attachLast, attach_eq_rewired, List.insertIdx_length_self]
  rfl

theorem prependChild_eq_rewired {c : NodeId} (hc : t.parent c = none) : t.prependChild p c =
    .ok (t.rewired p (c :: t.children p) (Function.update t.parent c (some p))) := by
  rw [prependChild, requireFree_of_node hc, attach_eq_rewired, List.insertIdx_zero]
  rfl

namespace Stands

variable {new : NodeId}

theorem insertBefore_eq_rewired (h : t.Stands n p left right) (hnew : t.parent new = none) :
    t.insertBefore new n = .ok (t.rewired p (left ++ new :: n :: right)
      (Function.update t.parent new (some p))) := by
  simp only [Tree.insertBefore, h.placeOf, bind, Except.bind, requireFree_of_node hnew]
  rw [attach_eq_rewired, h.children, insertIdx_append_cons]
  rfl

theorem insertAfter_eq_rewired (h : t.Stands n p left right) (hnew : t.parent new = none) :
    t.insertAfter new n = .ok (t.rewired p (left ++ n :: new :: right)
      (Function.update t.parent new (some p))) := by
  have hinsert : (left ++ n :: right).insertIdx (left.length + 1) new =
      left ++ n :: new :: right := by
    simpa using insertIdx_append_cons (left ++ [n]) right new
  simp only [Tree.insertAfter, h.placeOf, bind, Except.bind, requireFree_of_node hnew]
  rw [attach_eq_rewired, h.children, hinsert]
  rfl

theorem replace_eq_rewired (h : t.Stands n p left right) (hnew : t.parent new = none) :
    t.replace n new = .ok (t.rewired p (left ++ new :: right)
      (Function.update (Function.update t.parent new (some p)) n none)) := by
  have hset : (t.children p).set left.length new = left ++ new :: right := by
    rw [h.children]
    simp
  simp only [Tree.replace, h.placeOf, bind, Except.bind, requireFree_of_node hnew]
  rw [← hset]
  conv_lhs => rw [← rewired_self (t := t) (p := p)]
  rw [mapChildren_rewired, setParent_rewired, setParent_rewired]
  rfl

theorem detach_eq_rewired (h : t.Stands n p left right) :
    t.detach n = .ok (t.rewired p (left ++ right) (Function.update t.parent n none)) := by
  have herase : (t.children p).eraseIdx left.length = left ++ right := by
    rw [h.children, List.eraseIdx_append_of_length_le (Nat.le_refl _), Nat.sub_self]
    rfl
  simp only [Tree.detach, h.placeOf, bind, Except.bind]
  rw [← herase]
  conv_lhs => rw [← rewired_self (t := t) (p := p)]
  rw [mapChildren_rewired, setParent_rewired]
  rfl

end Stands

theorem placeOf_of_free (hn : t.parent n = none) :
    t.placeOf n = .error (t.problem n (.noParent n (t.kind n))) := by
  rw [placeOf, hn]

theorem requireFree_of_owned (hn : t.parent n = some p) : t.requireFree n = .error (.owned n) := by
  rw [requireFree, hn]

end Tree

namespace Action

open Hoist.Tree

/-- How an action that puts a node somewhere or takes it away changes a tree. -/
def move? : Action → Option (Tree → Except Refusal Tree)
  | appendChild parent child => some (·.appendChild parent child)
  | prependChild parent child => some (·.prependChild parent child)
  | insertBefore new existing => some (·.insertBefore new existing)
  | insertAfter new existing => some (·.insertAfter new existing)
  | replace old new => some (·.replace old new)
  | detach n => some (·.detach n)
  | _ => none

theorem run_of_move {a : Action} {f : Tree → Except Refusal Tree} (h : a.move? = some f) :
    a.run = Step.edit f := by
  cases a <;> cases h <;> rfl

/-- The node whose children an action changes, what they are then, and what the parents are then. A
node that is put somewhere has no parent before. -/
inductive Rewires (t : Tree) : Action → NodeId → List NodeId → (NodeId → Option NodeId) → Prop
  | appendChild {p c : NodeId} : t.parent c = none →
      Rewires t (.appendChild p c) p (t.children p ++ [c]) (Function.update t.parent c (some p))
  | prependChild {p c : NodeId} : t.parent c = none →
      Rewires t (.prependChild p c) p (c :: t.children p) (Function.update t.parent c (some p))
  | insertBefore {new existing p : NodeId} {left right : List NodeId} :
      t.Stands existing p left right → t.parent new = none →
        Rewires t (.insertBefore new existing) p (left ++ new :: existing :: right)
          (Function.update t.parent new (some p))
  | insertAfter {new existing p : NodeId} {left right : List NodeId} :
      t.Stands existing p left right → t.parent new = none →
        Rewires t (.insertAfter new existing) p (left ++ existing :: new :: right)
          (Function.update t.parent new (some p))
  | replace {old new p : NodeId} {left right : List NodeId} :
      t.Stands old p left right → t.parent new = none →
        Rewires t (.replace old new) p (left ++ new :: right)
          (Function.update (Function.update t.parent new (some p)) old none)
  | detach {n p : NodeId} {left right : List NodeId} : t.Stands n p left right →
      Rewires t (.detach n) p (left ++ right) (Function.update t.parent n none)

variable {w : Workspace} {a : Action} {p : NodeId} {cs : List NodeId}
  {owner : NodeId → Option NodeId}

/-- An action changes what it is said to change. -/
theorem Rewires.run (h : a.Rewires w.tree p cs owner) :
    a.run w = .ok () { w with tree := w.tree.rewired p cs owner } := by
  cases h with
  | appendChild hc => exact Step.edit_of_ok (f := (·.appendChild _ _)) (appendChild_eq_rewired hc)
  | prependChild hc => exact Step.edit_of_ok (f := (·.prependChild _ _)) (prependChild_eq_rewired hc)
  | insertBefore hs hnew =>
    exact Step.edit_of_ok (f := (·.insertBefore _ _)) (hs.insertBefore_eq_rewired hnew)
  | insertAfter hs hnew =>
    exact Step.edit_of_ok (f := (·.insertAfter _ _)) (hs.insertAfter_eq_rewired hnew)
  | replace hs hnew => exact Step.edit_of_ok (f := (·.replace _ _)) (hs.replace_eq_rewired hnew)
  | detach hs => exact Step.edit_of_ok (f := (·.detach _)) hs.detach_eq_rewired

theorem refused_first {α β : Type} {x : Except Refusal α} {g : α → Except Refusal β}
    {refusal : Refusal} (h : x = .error refusal) : ∃ refusal, (x >>= g) = .error refusal :=
  ⟨refusal, by rw [h]; rfl⟩

theorem refused_then {α β : Type} {x : Except Refusal α} {g : α → Except Refusal β} {r : α}
    (h : x = .ok r) (hg : ∃ refusal, g r = .error refusal) :
    ∃ refusal, (x >>= g) = .error refusal := by
  rw [h]
  exact hg

/-- A node is put somewhere or taken away, or that is refused. -/
theorem rewires_or_refused {t : Tree} {f : Tree → Except Refusal Tree} (h : t.Sound)
    (ha : a.move? = some f) :
    (∃ p cs owner, a.Rewires t p cs owner) ∨ ∃ refusal, f t = .error refusal := by
  have hfree : ∀ c, t.parent c = none ∨ t.requireFree c = .error (.owned c) := by
    intro c
    cases hc : t.parent c with
    | none => exact .inl rfl
    | some q => exact .inr (requireFree_of_owned hc)
  have hplace : ∀ n, (∃ q left right, t.Stands n q left right) ∨
      t.placeOf n = .error (t.problem n (.noParent n (t.kind n))) := by
    intro n
    cases hn : t.parent n with
    | none => exact .inr (placeOf_of_free hn)
    | some q => exact .inl ⟨q, h.exists_stands hn⟩
  cases a with
  | appendChild p c =>
    cases ha
    rcases hfree c with hc | hc
    · exact .inl ⟨_, _, _, .appendChild hc⟩
    · exact .inr (refused_first hc)
  | prependChild p c =>
    cases ha
    rcases hfree c with hc | hc
    · exact .inl ⟨_, _, _, .prependChild hc⟩
    · exact .inr (refused_first hc)
  | insertBefore new existing =>
    cases ha
    rcases hplace existing with ⟨q, left, right, hs⟩ | hs
    · rcases hfree new with hnew | hnew
      · exact .inl ⟨_, _, _, .insertBefore hs hnew⟩
      · exact .inr (refused_then hs.placeOf (refused_first hnew))
    · exact .inr (refused_first hs)
  | insertAfter new existing =>
    cases ha
    rcases hplace existing with ⟨q, left, right, hs⟩ | hs
    · rcases hfree new with hnew | hnew
      · exact .inl ⟨_, _, _, .insertAfter hs hnew⟩
      · exact .inr (refused_then hs.placeOf (refused_first hnew))
    · exact .inr (refused_first hs)
  | replace old new =>
    cases ha
    rcases hfree new with hnew | hnew
    · rcases hplace old with ⟨q, left, right, hs⟩ | hs
      · exact .inl ⟨_, _, _, .replace hs hnew⟩
      · exact .inr (refused_then (requireFree_of_node hnew) (refused_first hs))
    · exact .inr (refused_first hnew)
  | detach n =>
    cases ha
    rcases hplace n with ⟨q, left, right, hs⟩ | hs
    · exact .inl ⟨_, _, _, .detach hs⟩
    · exact .inr (refused_first hs)
  | _ => cases ha

theorem Rewires.lt (h : a.Rewires w.tree p cs owner) (hw : w.tree.Sound)
    (hn : ∀ n ∈ a.nodes, n < w.tree.size) : p < w.tree.size := by
  cases h with
  | appendChild _ | prependChild _ => exact hn p List.mem_cons_self
  | insertBefore hs _ | insertAfter hs _ | replace hs _ | detach hs => exact hw.parent_lt hs.parent

/-- An action that brings the children and the parents back undoes what was changed. -/
theorem Rewires.undo {ds : List NodeId} {other o : NodeId → Option NodeId}
    (h : a.Rewires (w.tree.rewired p ds other) p (w.tree.children p) o)
    (ho : ∀ m < w.tree.size, o m = w.tree.parent m) :
    a.run { w with tree := w.tree.rewired p ds other } = .ok () w := by
  have hrun := Rewires.run (w := { w with tree := w.tree.rewired p ds other }) h
  simpa only [rewired_back rfl ho] using hrun

/-- A node that was taken from between others can be put back next to either neighbour, and to the
end of the list that it was at. -/
theorem run_detach_back {n : NodeId} {left right : List NodeId} (h : w.tree.Sound)
    (hs : w.tree.Stands n p left right) :
    ∃ v, (detach n).run w = .ok () v ∧
      (∀ next ∈ right.head?, (insertBefore n next).run v = .ok () w) ∧
      (∀ previous ∈ left.getLast?, (insertAfter n previous).run v = .ok () w) ∧
      (left = [] → (prependChild p n).run v = .ok () w) ∧
      (right = [] → (appendChild p n).run v = .ok () w) := by
  have hnodup : (left ++ n :: right).Nodup := hs.children ▸ h.nodup p
  obtain ⟨hleft, hright, hapart⟩ := List.nodup_append.mp hnodup
  have hplt : p < w.tree.size := h.parent_lt hs.parent
  have hdetach : (detach n).Rewires w.tree p (left ++ right) (Function.update w.tree.parent n none) :=
    .detach hs
  refine ⟨_, hdetach.run, ?_⟩
  generalize hu : w.tree.rewired p (left ++ right) (Function.update w.tree.parent n none) = u
  have hchildren : u.children p = left ++ right := hu ▸ children_rewired hplt
  have hparent : ∀ m < w.tree.size, u.parent m = Function.update w.tree.parent n none m :=
    fun m hm => hu ▸ parent_rewired hm
  have hfree : u.parent n = none := by
    rw [hparent n (lt_of_parent hs.parent), Function.update_self]
  have hback : ∀ m < w.tree.size, Function.update u.parent n (some p) m = w.tree.parent m := by
    intro m hm
    by_cases hmn : m = n
    · rw [hmn, Function.update_self, hs.parent]
    · rw [Function.update_of_ne hmn, hparent m hm, Function.update_of_ne hmn]
  have hbeside : ∀ m ∈ left ++ right, u.parent m = some p := by
    intro m hm
    have hm' : m ∈ w.tree.children p := by
      rw [hs.children]
      exact List.mem_append.mpr ((List.mem_append.mp hm).imp id (List.mem_cons_of_mem _))
    have hmn : m ≠ n := by
      rintro rfl
      rcases List.mem_append.mp hm with hm | hm
      · exact hs.first hm
      · exact (List.nodup_cons.mp hright).1 hm
    have hp := (h.listed p m).mp hm'
    rw [hparent m (lt_of_parent hp), Function.update_of_ne hmn, hp]
  have hundo : ∀ {a : Action}, a.Rewires u p (left ++ n :: right)
      (Function.update u.parent n (some p)) → a.run { w with tree := u } = .ok () w := by
    intro a ha
    subst hu
    exact Rewires.undo (hs.children ▸ ha) hback
  refine ⟨?_, ?_, ?_, ?_⟩
  · intro next hnext
    obtain ⟨rest, rfl⟩ := List.head?_eq_some_iff.mp hnext
    have hstands : u.Stands next p left rest :=
      ⟨hbeside next (by simp), hchildren, fun hm => hapart next hm next (by simp) rfl⟩
    exact hundo (.insertBefore hstands hfree)
  · intro previous hprevious
    obtain ⟨before, rfl⟩ := List.getLast?_eq_some_iff.mp hprevious
    have hstands : u.Stands previous p before right := by
      refine ⟨hbeside previous (by simp), by simp [hchildren], fun hm => ?_⟩
      exact (List.nodup_append.mp hleft).2.2 previous hm previous (by simp) rfl
    have hrewires := Rewires.insertAfter hstands hfree
    rw [List.append_cons] at hrewires
    exact hundo hrewires
  · rintro rfl
    have hrewires := Rewires.prependChild (p := p) hfree
    rw [hchildren] at hrewires
    exact hundo hrewires
  · rintro rfl
    have hrewires := Rewires.appendChild (p := p) hfree
    rw [hchildren, List.append_nil] at hrewires
    exact hundo hrewires

/-- A node that took the place of another one can be replaced by it again. -/
theorem run_replace_back {old new : NodeId} {v : Workspace} (h : w.tree.Sound)
    (hnew : new < w.tree.size) (hrun : (replace old new).run w = .ok () v) :
    (replace new old).run v = .ok () w := by
  obtain ⟨p, cs, owner, hrewires⟩ | ⟨refusal, hrefused⟩ :=
    rewires_or_refused h (a := replace old new) rfl
  · rw [hrewires.run] at hrun
    cases hrun
    cases hrewires with
    | @replace _ _ _ left right hs hfree =>
      have hold : old < w.tree.size := lt_of_parent hs.parent
      have hplt : p < w.tree.size := h.parent_lt hs.parent
      have hne : new ≠ old := by
        rintro rfl
        rw [hs.parent] at hfree
        cases hfree
      have hnotin : new ∉ left := fun hm => by
        have hp := (h.listed p new).mp (by rw [hs.children]; exact List.mem_append_left _ hm)
        rw [hfree] at hp
        cases hp
      refine Rewires.undo (o := Function.update (Function.update
        (w.tree.rewired p (left ++ new :: right) (Function.update
          (Function.update w.tree.parent new (some p)) old none)).parent old (some p)) new none)
            ?_ fun m hm => ?_
      · rw [hs.children]
        refine .replace ⟨?_, children_rewired hplt, hnotin⟩ ?_
        · rw [parent_rewired hnew, Function.update_of_ne hne, Function.update_self]
        · rw [parent_rewired hold, Function.update_self]
      · by_cases hmn : m = new
        · rw [hmn, Function.update_self, hfree]
        · rw [Function.update_of_ne hmn]
          by_cases hmo : m = old
          · rw [hmo, Function.update_self, hs.parent]
          · rw [Function.update_of_ne hmo, parent_rewired hm, Function.update_of_ne hmo,
              Function.update_of_ne hmn]
  · rw [run_of_move (f := (·.replace old new)) rfl, Step.edit, hrefused] at hrun
    cases hrun

/-- Children that were taken from a node can be put back in their order. -/
theorem run_appendChildren_back {n : NodeId} (h : w.tree.Sound) {before behind : List NodeId}
    (hc : w.tree.children n = before ++ behind) :
    (behind.forM fun c => (appendChild n c).run)
      { w with tree := w.tree.rewired n before (without w.tree.parent behind) } = .ok () w := by
  induction behind generalizing before with
  | nil =>
    rw [without_nil, ← List.append_nil before, ← hc, rewired_self]
    rfl
  | cons c behind ih =>
    have hmem : c ∈ w.tree.children n := by simp [hc]
    have hp : w.tree.parent c = some n := (h.listed n c).mp hmem
    have hclt : c < w.tree.size := lt_of_parent hp
    have hfirst : c ∉ behind := by
      have hnodup := h.nodup n
      rw [hc] at hnodup
      exact (List.nodup_cons.mp (List.nodup_append.mp hnodup).2.1).1
    have hrun : (appendChild n c).run
        { w with tree := w.tree.rewired n before (without w.tree.parent (c :: behind)) } =
          .ok () { w with tree := w.tree.rewired n (before ++ [c]) (without w.tree.parent behind) } := by
      refine (Rewires.run (.appendChild ?_)).trans ?_
      · rw [parent_rewired hclt]
        simp [without]
      · rw [children_rewired (h.parent_lt hp), rewired_rewired, rewired_congr fun m hm => ?_]
        by_cases hmc : m = c
        · rw [hmc, Function.update_self, without, if_neg hfirst, hp]
        · rw [Function.update_of_ne hmc, parent_rewired hm]
          simp [without, hmc]
    exact (Step.bind_of_ok hrun).trans (ih (by simp [hc]))

/-- Putting a node somewhere or taking it away is refused, and then all stays as it is, or it changes
the children of one node at the place that it names, and the parents only of the nodes that it moves.
A node that is taken away can be put back next to either neighbour, a node that took the place of
another one can be replaced by it again, and the children that a node loses can be put back in their
order; each time all is as it was. -/
theorem moves_exactly {w : Workspace} (h : w.tree.Sound) :
    (∀ a f, move? a = some f → (∀ n ∈ a.nodes, n < w.tree.size) →
      (∃ refusal, a.run w = .error refusal w ∧ ∀ p cs owner, ¬ a.Rewires w.tree p cs owner) ∨
        ∃ p < w.tree.size, ∃ cs owner, a.Rewires w.tree p cs owner ∧
          a.run w = .ok () { w with tree := w.tree.rewired p cs owner }) ∧
    (∀ n p, w.tree.parent n = some p → ∃ left right v,
      w.tree.Stands n p left right ∧ (detach n).run w = .ok () v ∧
        (∀ next ∈ right.head?, (insertBefore n next).run v = .ok () w) ∧
        (∀ previous ∈ left.getLast?, (insertAfter n previous).run v = .ok () w) ∧
        (left = [] → (prependChild p n).run v = .ok () w) ∧
        (right = [] → (appendChild p n).run v = .ok () w)) ∧
    (∀ old new v, new < w.tree.size → (replace old new).run w = .ok () v →
      (replace new old).run v = .ok () w) ∧
    ∀ n, (do
      let children ← Step.look (·.children n)
      (detachChildren n).run
      children.forM fun c => (appendChild n c).run : Step Unit) w = .ok () w := by
  refine ⟨fun a f ha hn => ?_, fun n p hp => ?_, fun old new v hnew => run_replace_back h hnew,
    fun n => ?_⟩
  · rcases rewires_or_refused h ha with ⟨p, cs, owner, hrewires⟩ | ⟨refusal, hrefused⟩
    · exact .inr ⟨p, hrewires.lt h hn, cs, owner, hrewires, hrewires.run⟩
    · have hrun : a.run w = .error refusal w := by rw [run_of_move ha, Step.edit, hrefused]
      refine .inl ⟨refusal, hrun, fun p cs owner hrewires => ?_⟩
      rw [hrewires.run] at hrun
      cases hrun
  · obtain ⟨left, right, hs⟩ := h.exists_stands hp
    obtain ⟨v, hrun, hback⟩ := run_detach_back h hs
    exact ⟨left, right, v, hs, hrun, hback⟩
  · have hlook : Step.look (·.children n) w = .ok (w.tree.children n) w := rfl
    have hrun : (detachChildren n).run w = .ok () { w with
        tree := w.tree.rewired n [] (without w.tree.parent (w.tree.children n)) } := by
      rw [← detachChildren_eq_rewired]
      rfl
    rw [Step.bind_of_ok hlook, Step.bind_of_ok hrun]
    exact run_appendChildren_back h rfl

/-- A script with one statement, beside which stands another node. The statement is replaced by that
node and put back, and taken away and put back. -/
theorem moves_exactly_of_statement :
    ∃ w : Workspace, Session w ∧ w.tree.Sound ∧ 2 < w.tree.size ∧ w.tree.parent 1 = some 0 ∧
      (∃ v, (replace 1 2).run w = .ok () v ∧ v.tree.children 0 = [2] ∧
        (replace 2 1).run v = .ok () w) ∧
      ∃ left right v, w.tree.Stands 1 0 left right ∧ (detach 1).run w = .ok () v ∧
        (left = [] → (prependChild 0 1).run v = .ok () w) := by
  have hmade : Session ((Action.make .empty .nowhere).leaves (.ofTree .empty defaultTempPrefix)) :=
    .act _ (.empty rfl) ⟨by simp [nodes], by simp [placing]⟩
  have happended := Session.act (.appendChild 0 1) hmade ⟨by decide, by decide⟩
  have hsession := Session.act (.make .empty .nowhere) happended ⟨by simp [nodes], by simp [placing]⟩
  obtain ⟨-, hdetached, hreplaced, -⟩ := moves_exactly hsession.sound
  obtain ⟨left, right, v, hs, hrun, -, -, hfirst, -⟩ := hdetached 1 0 rfl
  exact ⟨_, hsession, hsession.sound, by decide, rfl,
    ⟨_, rfl, rfl, hreplaced 1 2 _ (by decide) rfl⟩, left, right, v, hs, hrun, hfirst⟩

end Action

end Hoist
