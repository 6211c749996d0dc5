import Hoist.Exposure
import Hoist.Proofs.GuardedConditional

namespace Hoist

namespace Tree

variable {t u : Tree}

/-- Each node of a list is the parent of the one before it. -/
def IsPath (t : Tree) : NodeId → List NodeId → Prop
  | _, [] => True
  | child, parent :: above => t.parent child = some parent ∧ t.IsPath parent above

theorem IsPath.below {child : NodeId} {path : List NodeId} (h : t.IsPath child path) :
    ∀ q ∈ path, t.Below q child := by
  induction path generalizing child with
  | nil => simp
  | cons parent above ih =>
    obtain ⟨hp, hrest⟩ := h
    refine List.forall_mem_cons.mpr ⟨below_of_parent hp (.refl parent), fun q hq => ?_⟩
    exact below_of_parent hp (ih hrest q hq).within

theorem isPath_congr {child : NodeId} {path : List NodeId} (h : t.IsPath child path)
    (hc : u.parent child = t.parent child) (hu : ∀ q ∈ path, u.parent q = t.parent q) :
    u.IsPath child path := by
  induction path generalizing child with
  | nil => trivial
  | cons parent above ih =>
    obtain ⟨hp, hrest⟩ := h
    exact ⟨hc.trans hp, ih hrest (hu parent List.mem_cons_self) fun q hq =>
      hu q (List.mem_cons_of_mem _ hq)⟩

/-- The way up from a node is a path. -/
theorem Sound.isPath_of_append (h : t.Sound) {n : NodeId} {left right : List NodeId}
    (hn : t.ancestors n = left ++ right) : t.IsPath n left := by
  induction left generalizing n with
  | nil => trivial
  | cons a left ih =>
    cases hp : t.parent n with
    | none =>
      rw [ancestors_of_free hp] at hn
      cases hn
    | some p =>
      rw [h.ancestors_eq hp] at hn
      obtain ⟨rfl, hr⟩ := List.cons.inj hn
      exact ⟨hp, ih hr⟩

/-- A root is found where all nodes on the way to it are parts of expressions. -/
theorem findRootFrom_eq_some {start child root : NodeId} {way : List NodeId}
    (h : t.findRootFrom start child way = .ok (some root)) :
    ∃ left right, way = left ++ root :: right ∧ t.role root = .root ∧
      ∀ a ∈ left, t.role a ≠ .root ∧ t.role a ≠ .boundary := by
  induction way generalizing child with
  | nil => cases h
  | cons parent above ih =>
    rw [findRootFrom] at h
    split at h
    · rename_i hr
      split at h
      · cases h
        exact ⟨[], above, rfl, hr, by simp⟩
      · cases h
    · cases h
    · rename_i hroot hboundary
      obtain ⟨left, right, rfl, hr, hleft⟩ := ih h
      exact ⟨parent :: left, right, rfl, hr, List.forall_mem_cons.mpr ⟨⟨hroot, hboundary⟩, hleft⟩⟩

/-- The first node of a list with a property is determined. -/
theorem first_unique {α : Type} {P : α → Prop} {l l' r r' : List α} {x y : α}
    (h : l ++ x :: r = l' ++ y :: r') (hx : P x) (hy : P y) (hl : ∀ a ∈ l, ¬ P a)
    (hl' : ∀ a ∈ l', ¬ P a) : x = y := by
  induction l generalizing l' with
  | nil =>
    cases l' with
    | nil => exact (List.cons.inj h).1
    | cons a l' => exact absurd hx ((List.cons.inj h).1 ▸ hl' a List.mem_cons_self)
  | cons a l ih =>
    cases l' with
    | nil => exact absurd hy ((List.cons.inj h).1 ▸ hl a List.mem_cons_self)
    | cons b l' =>
      exact ih (List.cons.inj h).2 (fun c hc => hl c (List.mem_cons_of_mem _ hc))
        fun c hc => hl' c (List.mem_cons_of_mem _ hc)

theorem outermostLabel_mem (n : NodeId) (way : List NodeId) :
    t.outermostLabel n way ∈ n :: way := by
  induction way generalizing n with
  | nil => exact List.mem_cons_self
  | cons parent above ih =>
    rw [outermostLabel]
    split
    · exact List.mem_cons_of_mem _ (ih parent)
    · exact List.mem_cons_self

theorem outermostConditional_mem (found child : NodeId) {way : List NodeId} :
    t.outermostConditional found child way ∈ found :: way := by
  induction way generalizing found child with
  | nil => exact List.mem_cons_self
  | cons parent above ih =>
    rw [outermostConditional]
    split
    · exact List.mem_cons_of_mem _ (ih parent parent)
    · rcases List.mem_cons.mp (ih found parent) with h | h
      · rw [h]
        exact List.mem_cons_self
      · exact List.mem_cons_of_mem _ (List.mem_cons_of_mem _ h)

namespace Sound

variable (h : t.Sound)

include h

/-- The statement that declarations go before stands in a list, and what it is found for is below
it. -/
theorem findInjection_eq_ok {n b : NodeId} (hb : t.findInjection n = .ok b) :
    ∃ root p, t.findRoot n = .ok (some root) ∧ t.Within b root ∧ t.parent b = some p := by
  rw [findInjection] at hb
  split at hb
  · cases hb
  · cases hb
  · rename_i root hroot
    dsimp only at hb
    split at hb
    · rename_i hlist
      cases hb
      have hwithin : t.Within (t.outermostLabel root (t.ancestors root)) root := by
        rcases List.mem_cons.mp (t.outermostLabel_mem root (t.ancestors root)) with
          he | hmem
        · rw [he]
          exact .refl root
        · exact (h.mem_ancestors.mp hmem).within
      cases hp : t.parent (t.outermostLabel root (t.ancestors root)) with
      | none =>
        rw [hp] at hlist
        cases hlist
      | some p => exact ⟨root, p, hroot, hwithin, rfl⟩
    · cases hb

/-- The way from a node, or from one on the way to its root, up to that root. -/
theorem pathTo_root {n root outer : NodeId} (hroot : t.findRoot n = .ok (some root))
    (ho : outer ∈ n :: t.pathTo root n) :
    ∃ above, t.ancestors outer = t.pathTo root outer ++ root :: above ∧
      (∀ a ∈ t.pathTo root outer, t.role a ≠ .root ∧ t.role a ≠ .boundary) ∧
      t.role root = .root := by
  have hpath : ∀ {m : NodeId} {left right : List NodeId}, t.ancestors m = left ++ root :: right →
      t.role root = .root → (∀ a ∈ left, t.role a ≠ .root ∧ t.role a ≠ .boundary) →
        t.pathTo root m = left := by
    intro m left right hm hr hleft
    have hne : ∀ a ∈ left, a ≠ root := by
      rintro a ha rfl
      exact (hleft a ha).1 hr
    rw [pathTo, hm, List.takeWhile_append_of_pos (by simpa using hne),
      List.takeWhile_cons_of_neg (by simp), List.append_nil]
  obtain ⟨left, right, hn, hr, hleft⟩ := findRootFrom_eq_some hroot
  rw [hpath hn hr hleft] at ho
  rcases List.mem_cons.mp ho with rfl | ho
  · rw [hpath hn hr hleft]
    exact ⟨right, hn, hleft, hr⟩
  · obtain ⟨before, after, rfl⟩ := List.append_of_mem ho
    rw [List.append_assoc, List.cons_append] at hn
    have houter := h.ancestors_of_append hn
    have hafter : ∀ a ∈ after, t.role a ≠ .root ∧ t.role a ≠ .boundary := fun a ha =>
      hleft a (List.mem_append_right _ (List.mem_cons_of_mem _ ha))
    rw [hpath houter hr hafter]
    exact ⟨right, houter, hafter, hr⟩

/-- The statement before which declarations for a node go is not below the node, nor below one on the
way to its root. -/
theorem apart_of_findInjection {n b root : NodeId} (hroot : t.findRoot n = .ok (some root))
    (hb : t.findInjection n = .ok b) :
    n < t.size ∧ (∃ p, t.parent b = some p) ∧ ¬ t.Within n b ∧
      ∀ q ∈ t.pathTo root n, ¬ t.Within q b := by
  obtain ⟨root', p, hroot', hwithin, hp⟩ := h.findInjection_eq_ok hb
  rw [hroot, Except.ok.injEq, Option.some.injEq] at hroot'
  subst hroot'
  obtain ⟨above, hn, -, -⟩ := h.pathTo_root hroot List.mem_cons_self
  have hapart : ∀ {q : NodeId}, t.Below root q → ¬ t.Within q b := fun hq hc =>
    h.acyclic root (below_of_within (hwithin.trans hc) hq)
  have habove : ∀ {m : NodeId} {left : List NodeId}, t.ancestors m = left ++ root :: above →
      t.Below root m := fun hm => h.mem_ancestors.mp (by rw [hm]; simp)
  obtain ⟨q, hq, -⟩ := below_cases (habove hn)
  refine ⟨lt_of_parent hq, ⟨p, hp⟩, hapart (habove hn), fun q hq => ?_⟩
  obtain ⟨before, after, hsplit⟩ := List.append_of_mem hq
  rw [hsplit, List.append_assoc, List.cons_append] at hn
  exact hapart (habove (h.ancestors_of_append hn))

end Sound

end Tree

namespace Step

variable {w : Workspace}

/-- What a node evaluates before one of its children is taken out. -/
theorem safe_exposeIn (hw : w.tree.Sound) (s : PassState) {parent child p : Nat}
    (hchild : w.tree.parent child = some parent) (hb : w.tree.parent s.before = some p)
    (hapart : ¬ w.tree.Within parent s.before) :
    (exposeIn s parent child).Safe w (Replaces w.tree s parent) := by
  have hstay : ∀ {v : Workspace}, v.tree = w.tree →
      (pure (parent, s) : Step (NodeId × PassState)).Safe v (Replaces w.tree s parent) :=
    fun hv => safe_pure (hv ▸ ⟨.refl _ _ _, rfl⟩)
  have hkept : ∀ {s' : PassState} {u : Tree} {M : NodeId → Prop},
      (∀ n < w.tree.size, M n → w.tree.Below parent n) → PassesTo w.tree s M s' u →
        Replaces w.tree s parent (parent, s') u := by
    intro s' u M hM hu
    refine ⟨hu.mono fun n hn hm => (hM n hn hm).within, hu.parent parent (hw.parent_lt hchild) ?_⟩
    exact fun hm => hw.acyclic parent (hM parent (hw.parent_lt hchild) hm)
  have hparts : ∀ n < w.tree.size, (∃ target, w.tree.parent target = some parent ∧
      w.tree.parent n = some target) → w.tree.Below parent n := by
    rintro n - ⟨target, htarget, hn⟩
    exact Tree.below_of_parent hn ((Tree.Within.refl parent).of_parent htarget)
  have hbefore : ∀ first, (do return (parent, ← extractBefore s parent first child) :
      Step (NodeId × PassState)).Safe w (Replaces w.tree s parent) := fun first =>
    Safe.bind hw (safe_extractBefore hw s first child hb hapart) fun s' v _ hv =>
      safe_pure (hkept (fun _ _ h => h) hv)
  refine safe_look_bind ?_
  split
  · refine safe_look_bind ?_
    split
    · exact safe_look_bind (Safe.bind hw (safe_refuse (Q := fun _ _ => False))
        fun _ _ _ h => h.elim)
    · exact hstay rfl
  · exact hstay rfl
  · exact Safe.bind hw (safe_extractTargetParts hw s child _ hb hapart) fun s' v _ hv =>
      safe_pure (hkept hparts hv)
  · exact safe_splitCompound hw s _ _ hchild hb hapart
  · refine Safe.bind hw (safe_firstChildOf hw parent) ?_
    rintro callee v hv ⟨htree, -⟩
    split
    · exact hstay htree
    · rw [← htree] at hb hapart hchild hkept ⊢
      refine Safe.bind hv (safe_extractBefore hv s 1 child hb hapart) ?_
      intro s' x hx hpasses
      refine Safe.bind hx (safe_mustPrecede _ _) ?_
      rintro needed y hy htree'
      cases needed with
      | false => exact safe_pure (htree' ▸ hkept (fun _ _ h => h) hpasses)
      | true =>
        have hway : ∀ a, v.tree.Within a s.before → ¬ v.tree.Below parent a := fun a ha hc =>
          hapart (ha.trans hc.within)
        have hlt : parent < v.tree.size := hv.parent_lt hchild
        rw [PassesTo, ← htree'] at hpasses
        refine (safe_splitMethodCall hy s' (hpasses.beside.trans hb)
          (hpasses.not_within hv hb hway hlt hapart)).imp fun r u hu => ?_
        exact .after hv hlt hpasses (fun _ _ h => h) hu
  · exact hbefore 0
  · exact hbefore 0
  · exact safe_look_bind safe_refuse
  · exact safe_look_bind safe_refuse

/-- What the nodes of a path evaluate before the node below them is taken out. -/
theorem safe_exposeAlong (hw : w.tree.Sound) (s : PassState) {child p : Nat} {path : List NodeId}
    (hpath : w.tree.IsPath child path) (hb : w.tree.parent s.before = some p)
    (hapart : ∀ q ∈ path, ¬ w.tree.Within q s.before) :
    (exposeAlong s child path).Safe w fun _ u =>
      w.tree.Keeps u fun n => ∃ q ∈ path, w.tree.Within q n := by
  induction path generalizing w s child with
  | nil => exact safe_pure (.refl _ _)
  | cons parent above ih =>
    obtain ⟨hchild, habove⟩ := hpath
    have hparent : ¬ w.tree.Within parent s.before := hapart parent List.mem_cons_self
    have hlt : parent < w.tree.size := hw.parent_lt hchild
    refine Safe.bind hw (safe_exposeIn hw s hchild hb hparent) ?_
    rintro ⟨next, s'⟩ v hv ⟨hpasses, hplace⟩
    have hout : ∀ q ∈ above, ¬ w.tree.Within parent q := fun q hq hc =>
      hw.acyclic parent (Tree.within_of_below (habove.below q hq) hc)
    have hin : ∀ q ∈ above, q < w.tree.size := fun q hq =>
      hw.within_lt (habove.below q hq).within hlt
    have hnext : v.tree.IsPath next above := by
      cases above with
      | nil => trivial
      | cons grand rest =>
        obtain ⟨hgrand, hrest⟩ := habove
        have hkept : ∀ q ∈ grand :: rest, v.tree.parent q = w.tree.parent q := fun q hq =>
          hpasses.parent q (hin q hq) (hout q hq)
        exact ⟨hplace.trans hgrand, Tree.isPath_congr hrest (hkept grand List.mem_cons_self)
          fun q hq => hkept q (List.mem_cons_of_mem _ hq)⟩
    have hway : ∀ a, w.tree.Within a s.before → ¬ w.tree.Within parent a := fun a ha hc =>
      hparent (ha.trans hc)
    refine (ih hv s' hnext (hpasses.beside.trans hb) fun q hq => ?_).imp fun _ u hu => ?_
    · exact hpasses.not_within hw hb hway (hin q hq) (hapart q (List.mem_cons_of_mem _ hq))
    · refine (hpasses.mono fun n _ hn => ⟨parent, List.mem_cons_self, hn⟩).toKeeps.trans hu ?_
      rintro n hn ⟨q, hq, hqn⟩
      by_contra hnone
      have hfar : ∀ a, w.tree.Within a n → ¬ w.tree.Within parent a := fun a ha hc =>
        hnone ⟨parent, List.mem_cons_self, ha.trans hc⟩
      exact hnone ⟨q, List.mem_cons_of_mem _ hq, (hpasses.within hw hn hfar q).mp hqn⟩

/-- One pass over the statement of an expression. -/
theorem safe_exposeUnder (hw : w.tree.Sound) {root n : NodeId}
    (hroot : w.tree.findRoot n = .ok (some root)) :
    (exposeUnder root n).Safe w fun _ _ => True := by
  have houter : w.tree.alwaysEvaluated root n ∈ n :: w.tree.pathTo root n :=
    Tree.outermostConditional_mem _ _
  obtain ⟨above, hancestors, hway, hr⟩ := hw.pathTo_root hroot houter
  refine safe_look_bind ?_
  generalize w.tree.alwaysEvaluated root n = outer at houter hancestors hway
  refine safe_ask_bind fun b hb => safe_look_bind (safe_look_bind ?_)
  have hfound : w.tree.findRoot outer = .ok (some root) := by
    obtain ⟨root', p, hroot', -, -⟩ := hw.findInjection_eq_ok hb
    obtain ⟨left, right, hsplit, hr', hleft⟩ := Tree.findRootFrom_eq_some hroot'
    have hsame : root' = root := by
      refine Tree.first_unique (P := fun a => w.tree.role a = .root) (hsplit.symm.trans hancestors)
        hr' hr (fun a ha => (hleft a ha).1) fun a ha => (hway a ha).1
    rw [hroot', hsame]
  obtain ⟨-, ⟨p, hp⟩, hapart, hpath⟩ := hw.apart_of_findInjection hfound hb
  refine Safe.bind hw (safe_exposeAlong hw _ (hw.isPath_of_append hancestors) hp hpath) ?_
  intro _ v hv hkeeps
  have hblt : b < w.tree.size := Tree.lt_of_parent hp
  have hfar : ∀ a, w.tree.Within a b → ¬ ∃ q ∈ w.tree.pathTo root outer, w.tree.Within q a := by
    rintro a ha ⟨q, hq, hqa⟩
    exact hpath q hq (ha.trans hqa)
  have hvb : v.tree.parent b = some p := by rw [hkeeps.parent b hblt (hfar b (.refl b)), hp]
  have hvapart : ¬ v.tree.Within outer b := fun hc =>
    hapart ((hkeeps.within hw hblt hfar outer).mp hc)
  split
  · exact safe_look_bind (safe_splitConditional hv _ hvb hvapart).discard
  · exact safe_pure trivial

/-- One pass, wherever it is asked for, changes a sound tree by sound edits only. -/
theorem safe_exposeOnce (hw : w.tree.Sound) (n : NodeId) :
    (exposeOnce n).Safe w fun _ _ => True := by
  refine safe_ask_bind fun root? hroot => ?_
  cases root? with
  | none => exact safe_look_bind safe_refuse
  | some root =>
    exact Safe.bind hw (safe_exposeUnder hw hroot) fun _ _ _ _ =>
      safe_reportChange.imp fun _ _ _ => trivial

theorem safe_classify (n : NodeId) :
    (classify n).Safe w fun m u => u = w.tree ∧ (m = .movable → ∃ root,
      u.findRoot n = .ok (some root)) := by
  refine safe_get_bind (safe_ask fun m hm => ⟨rfl, ?_⟩)
  rintro rfl
  rw [Tree.classify] at hm
  split at hm
  · cases hm
  · cases hm
  · exact ⟨_, by assumption⟩

theorem safe_exposeWithin (hw : w.tree.Sound) (n : NodeId) (budget : Nat) :
    (exposeWithin n budget).Safe w fun _ _ => True := by
  induction budget generalizing w with
  | zero =>
    rw [exposeWithin]
    refine Safe.bind hw (safe_classify n) fun m v hv _ => ?_
    cases m with
    | movable => exact safe_pure trivial
    | undecomposable => exact safe_look_bind safe_refuse
    | decomposable => exact safe_look_bind safe_refuse
  | succ budget ih =>
    rw [exposeWithin]
    refine Safe.bind hw (safe_classify n) fun m v hv _ => ?_
    cases m with
    | movable => exact safe_pure trivial
    | undecomposable => exact safe_look_bind safe_refuse
    | decomposable => exact Safe.bind hv (safe_exposeOnce hv n) fun _ x hx _ => ih hx

/-- Passes until an expression is movable change a sound tree by sound edits only. -/
theorem safe_expose (hw : w.tree.Sound) (n : NodeId) : (expose n).Safe w fun _ _ => True := by
  refine safe_ask_bind fun root? hroot => ?_
  cases root? with
  | none => exact safe_exposeWithin hw n 0
  | some root => exact safe_look_bind (safe_exposeWithin hw n _)

/-- Moving an expression changes a sound tree by sound edits only. -/
theorem safe_relocate (hw : w.tree.Sound) (n : NodeId) : (relocate n).Safe w fun _ _ => True := by
  refine Safe.bind hw (safe_classify n) ?_
  rintro m v hv ⟨-, hm⟩
  split
  · exact safe_look_bind (Safe.bind hv (safe_refuse (Q := fun _ _ => False)) fun _ _ _ h => h.elim)
  · rename_i hmovable
    obtain ⟨root, hroot⟩ := hm (by simpa using hmovable)
    refine safe_ask_bind fun b hb => ?_
    obtain ⟨hn, ⟨p, hp⟩, hapart, -⟩ := hv.apart_of_findInjection hroot hb
    refine Safe.bind hv safe_freshName ?_
    rintro name x hx htree
    rw [← htree] at hp hapart hn
    refine Safe.bind hx (safe_declare hx name hn hp hapart) fun _ y hy _ => ?_
    exact Safe.bind hy safe_reportChange fun _ _ _ _ => safe_pure trivial

end Step

end Hoist
