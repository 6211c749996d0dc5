import Hoist.Proofs.Guarded

namespace Hoist

namespace Step

variable {w : Workspace}

theorem safe_replace (hw : w.tree.Sound) {old new : Nat} (hn : new < w.tree.size)
    (hapart : ∀ p, w.tree.parent old = some p → ¬ w.tree.Within new p) :
    (edit (·.replace old new)).Safe w fun _ u => u.size = w.tree.size ∧
      ∃ p, w.tree.parent old = some p ∧ ∀ m, u.parent m =
        if m = old then none else if m = new then some p else w.tree.parent m := by
  refine safe_edit fun u hu => ?_
  obtain ⟨hs, hsize, p, hp, -, hparent⟩ := hw.replace hn hapart hu
  exact ⟨Tree.Mutates.edits (.replace hu) hs, hsize, p, hp, hparent⟩

theorem safe_insertBefore (hw : w.tree.Sound) {n m p : Nat} (hn : n < w.tree.size)
    (hm : w.tree.parent m = some p) (hapart : ¬ w.tree.Within n p) :
    (edit (·.insertBefore n m)).Safe w fun _ u => w.tree.Moves u n (some p) := by
  refine safe_edit fun u hu => ?_
  have hany : ∀ q, w.tree.parent m = some q → ¬ w.tree.Within n q := fun q hq => by
    rw [hm, Option.some.injEq] at hq
    exact hq ▸ hapart
  obtain ⟨hs, q, hq, hmoves⟩ := hw.insertBefore hn hany hu
  rw [hm, Option.some.injEq] at hq
  exact ⟨Tree.Mutates.edits (.insertBefore hu) hs, hq ▸ hmoves⟩

/-- A node is declared before a statement that is not below it. -/
theorem safe_declare (hw : w.tree.Sound) (name : String) {n b p : Nat} (hn : n < w.tree.size)
    (hb : w.tree.parent b = some p) (hapart : ¬ w.tree.Within n b) :
    (declare name n b).Safe w fun d u =>
      w.tree.size ≤ d ∧ u.parent d = some p ∧ w.tree.Keeps u (· = n) := by
  have hplt : p < w.tree.size := hw.parent_lt hb
  have hblt : b < w.tree.size := Tree.lt_of_parent hb
  have hway : ∀ a, w.tree.Within a p → a ≠ n := by
    rintro a ha rfl
    exact hapart (ha.of_parent hb)
  have hbn : b ≠ n := by
    rintro rfl
    exact hapart (.refl b)
  refine safe_look_bind (Safe.bind hw (safe_make hw _ _) ?_)
  rintro reference v hv ⟨rfl, hvsize, hvparent⟩
  have hold : w.tree.Keeps v.tree (fun _ => False) := ⟨by omega, fun m _ _ => hvparent m⟩
  refine Safe.bind hv (safe_replace hv (by omega) fun q hq => ?_) ?_
  · rw [hvparent] at hq
    exact hold.not_within hw (hw.parent_lt hq) (fun _ _ => id) (Nat.le_refl _)
  rintro - v' hv' ⟨hsize', q, hq, hparent'⟩
  refine Safe.bind hv' (safe_make hv' _ _) ?_
  rintro declarator x hx ⟨rfl, hxsize, hxparent⟩
  have hdeclarator : x.tree.parent v'.tree.size = none := by
    rw [hxparent]
    exact Tree.parent_of_size_le (Nat.le_refl _)
  refine Safe.bind hx (safe_appendChild hx hdeclarator (by omega) ?_ ?_) ?_
  · exact Nat.lt_trans hn (by omega)
  · exact Nat.ne_of_lt (Nat.lt_trans hn (by omega))
  intro _ y hy hmoves
  have hysize := hmoves.size
  have hylt : v'.tree.size < y.tree.size := by omega
  refine Safe.bind hy (safe_makeOver hy .var _ _ (List.forall_mem_singleton.mpr hylt)) ?_
  rintro declaration z hz ⟨rfl, hzsize, hzother, hzall⟩
  -- All that was there before is where it was, but the node.
  have hkeeps : w.tree.Keeps z.tree (· = n) := by
    refine ⟨by omega, fun m hm hne => ?_⟩
    have hm' : m ∉ [v'.tree.size] := by
      rw [List.mem_singleton]
      exact Nat.ne_of_lt (Nat.lt_trans hm (by omega))
    rw [hzother m hm', hmoves.parent, if_neg hne, hxparent, hparent', if_neg hne,
      if_neg (Nat.ne_of_lt hm), hvparent]
  have hzb : z.tree.parent b = some p := by rw [hkeeps.parent b hblt hbn, hb]
  refine Safe.bind hz (safe_insertBefore hz (by omega) hzb ?_) ?_
  · exact hkeeps.not_within hw hplt hway (show w.tree.size ≤ y.tree.size by omega)
  rintro - u - hu
  refine safe_pure ⟨by omega, ?_, hkeeps.trans hu.keeps fun m hm he => ?_⟩
  · rw [hu.parent, if_pos rfl]
  · subst he
    exact absurd hm (by omega)

theorem safe_extract (hw : w.tree.Sound) {n b p : Nat} (hn : n < w.tree.size)
    (hb : w.tree.parent b = some p) (hapart : ¬ w.tree.Within n b) :
    (extract n b).Safe w fun d u =>
      w.tree.size ≤ d ∧ u.parent d = some p ∧ w.tree.Keeps u (· = n) := by
  refine Safe.bind hw safe_freshConstant ?_
  rintro name v hv htree
  rw [← htree] at hn hb hapart ⊢
  exact safe_declare hv name hn hb hapart

theorem safe_mustPrecede (effects : Bool) (n : NodeId) :
    (mustPrecede effects n).Safe w fun _ u => u = w.tree := safe_get_bind (safe_pure rfl)

/-- What a pass over some nodes does to the statement it goes before. -/
def PassesTo (t : Tree) (s : PassState) (M : NodeId → Prop) (s' : PassState) (u : Tree) : Prop :=
  t.Passes u s.before s'.before M

theorem safe_extractIfNeeded (hw : w.tree.Sound) (s : PassState) {n p : Nat}
    (hn : n < w.tree.size) (hb : w.tree.parent s.before = some p)
    (hapart : ¬ w.tree.Within n s.before) :
    (extractIfNeeded s n).Safe w (PassesTo w.tree s (· = n)) := by
  refine Safe.bind hw (safe_mustPrecede _ _) ?_
  rintro needed v hv htree
  rw [← htree] at hn hb hapart ⊢
  cases needed with
  | false => exact safe_pure (Tree.Passes.refl _ _ _)
  | true =>
    refine Safe.bind hv (safe_extract hv hn hb hapart) ?_
    rintro d x - ⟨hd, hparent, hkeeps⟩
    exact safe_pure ⟨hkeeps, hparent.trans hb.symm, .inr hd⟩

/-- Nodes above which the statement does not stand are taken out, the last first. -/
theorem safe_extractAll (hw : w.tree.Sound) (s : PassState) {ns : List NodeId} {p : NodeId}
    (hb : w.tree.parent s.before = some p)
    (hns : ∀ n ∈ ns, n < w.tree.size ∧ ¬ w.tree.Within n s.before) :
    (extractAll s ns).Safe w (PassesTo w.tree s (· ∈ ns)) := by
  induction ns with
  | nil => exact safe_pure (Tree.Passes.refl _ _ _)
  | cons n ns ih =>
    obtain ⟨hn, hapart⟩ := hns n List.mem_cons_self
    have hrest : ∀ m ∈ ns, m < w.tree.size ∧ ¬ w.tree.Within m s.before :=
      fun m hm => hns m (List.mem_cons_of_mem _ hm)
    refine Safe.bind hw (ih hrest) ?_
    intro s' v hv hpasses
    have hway : ∀ a, w.tree.Within a s.before → a ∉ ns := fun a ha hm => (hrest a hm).2 ha
    have hvb : v.tree.parent s'.before = some p := hpasses.beside.trans hb
    refine (safe_extractIfNeeded hv s' (Nat.lt_of_lt_of_le hn hpasses.size) hvb
      (hpasses.not_within hw hb hway hn hapart)).imp fun s'' u hu => ?_
    refine (hpasses.mono fun m _ hm => List.mem_cons_of_mem _ hm).trans hu fun m _ hm => ?_
    exact hm ▸ List.mem_cons_self

/-- What is below a node that a statement is not below is apart from the statement. -/
theorem apart_of_below {t : Tree} {q n b : NodeId} (hq : ¬ t.Within q b) (hn : t.Within q n) :
    ¬ t.Within n b := fun hb => hq (hb.trans hn)

theorem safe_extractBefore (hw : w.tree.Sound) (s : PassState) {parent p : NodeId} (first : Nat)
    (child : NodeId) (hb : w.tree.parent s.before = some p)
    (hapart : ¬ w.tree.Within parent s.before) :
    (extractBefore s parent first child).Safe w (PassesTo w.tree s (w.tree.Below parent)) := by
  have hunder : ∀ n ∈ ((w.tree.children parent).drop first).takeWhile (· ≠ child),
      w.tree.parent n = some parent := fun n hn => (hw.listed parent n).mp
    (List.drop_subset _ _ (List.takeWhile_subset _ hn))
  refine safe_look_bind ((safe_extractAll hw s hb fun n hn => ?_).imp fun s' u hu =>
    hu.mono fun n _ hn => Tree.below_of_parent (hunder n hn) (.refl _))
  refine ⟨Tree.lt_of_parent (hunder n hn), apart_of_below hapart ?_⟩
  exact (Tree.Within.refl parent).of_parent (hunder n hn)

/-- A part of the target of an assignment is taken out, after others. -/
theorem safe_extractPart {t : Tree} (ht : t.Sound) {s s' : PassState} {target n p : Nat}
    (hlt : target < t.size) (hb : t.parent s.before = some p) (hapart : ¬ t.Within target s.before)
    (hw : w.tree.Sound) (hpasses : t.Passes w.tree s.before s'.before fun n =>
      t.parent n = some target) (hn : w.tree.parent n = some target) :
    (extractIfNeeded s' n).Safe w fun s'' u =>
      t.Passes u s.before s''.before fun n => t.parent n = some target := by
  have hway : ∀ a, t.Within a s.before → t.parent a ≠ some target := fun a ha hc =>
    apart_of_below hapart ((Tree.Within.refl target).of_parent hc) ha
  have htarget : ¬ w.tree.Within target s'.before := hpasses.not_within ht hb hway hlt hapart
  have hpart : ¬ w.tree.Within n s'.before :=
    apart_of_below htarget ((Tree.Within.refl target).of_parent hn)
  refine (safe_extractIfNeeded hw s' (Tree.lt_of_parent hn) (hpasses.beside.trans hb) hpart).imp
    fun s'' u hu => hpasses.trans hu ?_
  rintro m hm rfl
  by_contra hother
  rw [hpasses.parent m hm hother] at hn
  exact hother hn

/-- The parts of the target of an assignment are taken out. -/
theorem safe_extractTargetParts (hw : w.tree.Sound) (s : PassState) {assignment p : Nat}
    (child : NodeId) (form : TargetForm) (hb : w.tree.parent s.before = some p)
    (hapart : ¬ w.tree.Within assignment s.before) :
    (extractTargetParts s assignment child form).Safe w
      (PassesTo w.tree s fun n => ∃ target, w.tree.parent target = some assignment ∧
        w.tree.parent n = some target) := by
  refine Safe.bind hw (safe_firstChildOf hw assignment) ?_
  rintro target v hv ⟨htree, htarget⟩
  rw [← htree] at hb hapart ⊢
  have hlt : target < v.tree.size := Tree.lt_of_parent htarget
  have htapart : ¬ v.tree.Within target s.before :=
    apart_of_below hapart ((Tree.Within.refl assignment).of_parent htarget)
  have hall : ∀ {s' : PassState} {u : Tree},
      v.tree.Passes u s.before s'.before (fun n => v.tree.parent n = some target) →
        PassesTo v.tree s (fun n => ∃ target, v.tree.parent target = some assignment ∧
          v.tree.parent n = some target) s' u :=
    fun hu => hu.mono fun n _ hn => ⟨target, htarget, hn⟩
  have hobject : ∀ {x : Workspace} {s' : PassState}, x.tree.Sound →
      v.tree.Passes x.tree s.before s'.before (fun n => v.tree.parent n = some target) →
        (do extractIfNeeded s' (← firstChildOf target)).Safe x
          (PassesTo v.tree s fun n => ∃ target, v.tree.parent target = some assignment ∧
            v.tree.parent n = some target) := by
    intro x s' hx hpasses
    refine Safe.bind hx (safe_firstChildOf hx target) ?_
    rintro object y hy ⟨hyx, hparent⟩
    rw [← hyx] at hpasses
    exact (safe_extractPart hv hlt hb htapart hy hpasses hparent).imp fun _ _ hu => hall hu
  split
  · exact safe_pure (Tree.Passes.refl _ _ _)
  · cases form with
    | name => exact safe_pure (Tree.Passes.refl _ _ _)
    | property => exact hobject hv (.refl _ _ _)
    | element =>
      refine safe_look_bind ?_
      cases hkey : (v.tree.children target)[1]? with
      | none => exact hobject hv (.refl _ _ _)
      | some key =>
        have hparent : v.tree.parent key = some target :=
          (hv.listed target key).mp (List.mem_of_getElem? hkey)
        exact Safe.bind hv (safe_extractPart hv hlt hb htapart hv (.refl _ _ _) hparent)
          fun s' x hx hpasses => hobject hx hpasses

end Step

end Hoist
