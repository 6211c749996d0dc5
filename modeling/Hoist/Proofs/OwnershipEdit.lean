import Hoist.Proofs.Ownership

namespace Hoist

namespace Tree

variable {t u : Tree}

/-- Only one node gets another parent. -/
structure Moves (t u : Tree) (n : NodeId) (p : Option NodeId) : Prop where
  size : u.size = t.size
  parent : ∀ m, u.parent m = if m = n then p else t.parent m

theorem free_of_requireFree {n : NodeId} {r : Unit} (h : t.requireFree n = .ok r) :
    t.parent n = none := by
  rw [requireFree] at h
  split at h
  · assumption
  · cases h

theorem moves_setParent {n : NodeId} (hn : n < t.size) (p : Option NodeId) :
    t.Moves (t.setParent n p) n p where
  size := size_setParent t n p
  parent m := by
    rw [parent_setParent]
    by_cases hm : m = n
    · subst hm
      simp [hn]
    · rw [if_neg (fun hc => hm hc.1.symm), if_neg hm]

theorem children_attach (t : Tree) (p index c n : Nat) :
    (t.attach p index c).children n =
      if p = n ∧ n < t.size then (t.children n).insertIdx index c else t.children n := by
  rw [attach, children_mapChildren, size_setParent, children_setParent]

namespace Sound

variable (h : t.Sound)

include h

/-- A node without a parent is put under a node that is not below it. -/
theorem attach {p c index : Nat} (hp : p < t.size) (hc : c < t.size) (hfree : t.parent c = none)
    (hw : ¬ t.Within c p) (hi : index ≤ (t.children p).length) :
    (t.attach p index c).Sound ∧ t.Moves (t.attach p index c) c (some p) := by
  have hmoves := moves_setParent hc (some p)
  have hparent : ∀ n, (t.attach p index c).parent n = if n = c then some p else t.parent n := by
    intro n
    rw [Tree.attach, parent_mapChildren, hmoves.parent]
  refine ⟨h.link hfree hw hparent ?_ ?_, ⟨?_, hparent⟩⟩
  · rw [children_attach, if_pos ⟨rfl, hp⟩]
    exact List.perm_insertIdx c _ hi
  · intro n hn
    rw [children_attach, if_neg fun hc => hn hc.1.symm]
  · rw [Tree.attach, size_mapChildren, size_setParent]

theorem appendChild {p c : NodeId} (hp : p < t.size) (hc : c < t.size) (hw : ¬ t.Within c p)
    (ha : t.appendChild p c = .ok u) : u.Sound ∧ t.Moves u c (some p) := by
  rw [Tree.appendChild] at ha
  cases hfree : t.requireFree c with
  | error r => rw [hfree] at ha; cases ha
  | ok r =>
    rw [hfree] at ha
    cases ha
    exact h.attach hp hc (free_of_requireFree hfree) hw (Nat.le_refl _)

theorem prependChild {p c : NodeId} (hp : p < t.size) (hc : c < t.size) (hw : ¬ t.Within c p)
    (ha : t.prependChild p c = .ok u) : u.Sound ∧ t.Moves u c (some p) := by
  rw [Tree.prependChild] at ha
  cases hfree : t.requireFree c with
  | error r => rw [hfree] at ha; cases ha
  | ok r =>
    rw [hfree] at ha
    cases ha
    exact h.attach hp hc (free_of_requireFree hfree) hw (Nat.zero_le _)

/-- A node is put right before another, or right behind it. -/
theorem attachBeside {new existing shift : Nat} (hshift : shift ≤ 1) (hn : new < t.size)
    (hw : ∀ p, t.parent existing = some p → ¬ t.Within new p)
    (ha : (do
      let (parent, index) ← t.placeOf existing
      t.requireFree new
      return t.attach parent (index + shift) new) = .ok u) :
    u.Sound ∧ ∃ p, t.parent existing = some p ∧ t.Moves u new (some p) := by
  rcases h.placeOf_cases existing with ⟨-, hplace⟩ | ⟨p, index, hp, hplace, hindex⟩
  · rw [hplace] at ha
    cases ha
  · rw [hplace] at ha
    cases hfree : t.requireFree new with
    | error r => simp [hfree, bind, Except.bind] at ha
    | ok r =>
      simp only [hfree, bind, Except.bind, pure, Except.pure, Except.ok.injEq] at ha
      subst ha
      have hlt : index < (t.children p).length := (List.getElem?_eq_some_iff.mp hindex).1
      obtain ⟨hs, hm⟩ := h.attach (h.parent_lt hp) hn (free_of_requireFree hfree)
        (hw p hp) (show index + shift ≤ _ by omega)
      exact ⟨hs, p, hp, hm⟩

theorem insertBefore {new existing : NodeId} (hn : new < t.size)
    (hw : ∀ p, t.parent existing = some p → ¬ t.Within new p)
    (ha : t.insertBefore new existing = .ok u) :
    u.Sound ∧ ∃ p, t.parent existing = some p ∧ t.Moves u new (some p) :=
  h.attachBeside (Nat.zero_le 1) hn hw ha

theorem insertAfter {new existing : NodeId} (hn : new < t.size)
    (hw : ∀ p, t.parent existing = some p → ¬ t.Within new p)
    (ha : t.insertAfter new existing = .ok u) :
    u.Sound ∧ ∃ p, t.parent existing = some p ∧ t.Moves u new (some p) :=
  h.attachBeside (Nat.le_refl 1) hn hw ha

/-- A node of a list is the only one that goes with its place. -/
theorem children_eraseIdx {p n index : Nat} (hi : (t.children p)[index]? = some n) :
    (t.children p).eraseIdx index = (t.children p).filter (· ∉ [n]) := by
  have hn : index < (t.children p).length := (List.getElem?_eq_some_iff.mp hi).1
  have hget : (t.children p)[index] = n := (List.getElem?_eq_some_iff.mp hi).2
  rw [← (h.nodup p).erase_getElem index hn, (h.nodup p).erase_eq_filter, hget]
  refine List.filter_congr fun m _ => ?_
  by_cases hm : m = n <;> simp [hm]

theorem detach {n : NodeId} (ha : t.detach n = .ok u) : u.Sound ∧ t.Moves u n none := by
  rw [Tree.detach] at ha
  rcases h.placeOf_cases n with ⟨-, hplace⟩ | ⟨p, index, hp, hplace, hindex⟩
  · rw [hplace] at ha
    cases ha
  · rw [hplace] at ha
    simp only [bind, Except.bind, pure, Except.pure, Except.ok.injEq] at ha
    subst ha
    have hn : n < t.size := lt_of_parent hp
    have hsize : (t.mapChildren p fun cs => cs.eraseIdx index).size = t.size :=
      size_mapChildren t p _
    have hmoves := moves_setParent (t := t.mapChildren p fun cs => cs.eraseIdx index)
      (by rw [hsize]; exact hn) none
    have hparent : ∀ m, ((t.mapChildren p fun cs => cs.eraseIdx index).setParent n none).parent m =
        if m = n then none else t.parent m := by
      intro m
      rw [hmoves.parent, parent_mapChildren]
    refine ⟨h.unlink (s := [n]) (fun m => ?_) (fun m => ?_), ⟨hmoves.size.trans hsize, hparent⟩⟩
    · rw [hparent]
      simp
    · rw [children_setParent, children_mapChildren]
      by_cases hm : p = m
      · subst hm
        rw [if_pos ⟨rfl, h.parent_lt hp⟩]
        exact h.children_eraseIdx hindex
      · have hnot : n ∉ t.children m := fun hmem => by
          have hm' := (h.listed m n).mp hmem
          rw [hp] at hm'
          exact hm (Option.some.inj hm')
        rw [if_neg fun hc => hm hc.1, List.filter_eq_self.mpr]
        intro c hc
        simpa using fun he : c = n => hnot (he ▸ hc)

theorem replace {old new : NodeId} (hn : new < t.size)
    (hw : ∀ p, t.parent old = some p → ¬ t.Within new p) (ha : t.replace old new = .ok u) :
    u.Sound ∧ u.size = t.size ∧ ∃ p, t.parent old = some p ∧ t.parent new = none ∧
      ∀ m, u.parent m = if m = old then none else if m = new then some p else t.parent m := by
  rw [Tree.replace] at ha
  cases hfree : t.requireFree new with
  | error r => rw [hfree] at ha; cases ha
  | ok r =>
    rw [hfree] at ha
    rcases h.placeOf_cases old with ⟨-, hplace⟩ | ⟨p, index, hp, hplace, hindex⟩
    · simp [hplace, bind, Except.bind] at ha
    · simp only [hplace, bind, Except.bind, pure, Except.pure, Except.ok.injEq] at ha
      subst ha
      have hnew : t.parent new = none := free_of_requireFree hfree
      have hne : new ≠ old := by
        rintro rfl
        rw [hnew] at hp
        cases hp
      have hold : old < t.size := lt_of_parent hp
      have hplt : p < t.size := h.parent_lt hp
      -- The tree without the old node, under whose parent the new one is put.
      obtain ⟨v, hv⟩ : ∃ v, t.detach old = .ok v := by
        rw [Tree.detach, hplace]
        exact ⟨_, rfl⟩
      obtain ⟨hvs, hvm⟩ := h.detach hv
      have hvc : v.children p = (t.children p).eraseIdx index := by
        rw [Tree.detach, hplace] at hv
        cases hv
        rw [children_setParent, children_mapChildren, if_pos ⟨rfl, hplt⟩]
      have hvo : ∀ m, m ≠ p → v.children m = t.children m := by
        intro m hm
        rw [Tree.detach, hplace] at hv
        cases hv
        rw [children_setParent, children_mapChildren, if_neg fun hc => hm hc.1.symm]
      have hparent : ∀ m, (((t.mapChildren p fun cs => cs.set index new).setParent new
          (some p)).setParent old none).parent m =
            if m = old then none else if m = new then some p else t.parent m := by
        intro m
        rw [parent_setParent, parent_setParent, parent_mapChildren, size_setParent,
          size_mapChildren]
        by_cases hm : m = old
        · subst hm
          simp [hold]
        · by_cases hm' : m = new
          · subst hm'
            simp [hm, hn, Ne.symm hm]
          · simp [hm, hm', Ne.symm hm, Ne.symm hm']
      refine ⟨hvs.link (p := p) (c := new) ?_ ?_ (fun m => ?_) ?_ (fun m hm => ?_), by simp, p, hp,
        hnew, hparent⟩
      · rw [hvm.parent, if_neg hne, hnew]
      · intro hwv
        refine hw p hp ?_
        refine Relation.ReflTransGen.mono (fun a b hab => ?_) _ _ hwv
        have hb : v.parent a = some b := hab
        rw [hvm.parent] at hb
        split at hb
        · cases hb
        · exact hb
      · rw [hparent, hvm.parent]
        by_cases hm : m = old
        · simp [hm, Ne.symm hne]
        · simp [hm]
      · have hlt : index < (t.children p).length := (List.getElem?_eq_some_iff.mp hindex).1
        rw [hvc, children_setParent, children_setParent, children_mapChildren, if_pos ⟨rfl, hplt⟩]
        have hset := List.getElem_cons_eraseIdx_perm (l := (t.children p).set index new)
          (n := index) (by simpa using hlt)
        rw [List.getElem_set_self, List.eraseIdx_set_eq] at hset
        exact hset.symm
      · rw [children_setParent, children_setParent, children_mapChildren,
          if_neg fun hc => hm hc.1.symm, hvo m hm]

theorem detachChildren (n : NodeId) :
    (t.detachChildren n).Sound ∧ (t.detachChildren n).size = t.size ∧
      ∀ m, (t.detachChildren n).parent m = if m ∈ t.children n then none else t.parent m := by
  have hfold : ∀ m, (t.detachChildren n).node m =
      if m ∈ t.children n ∧ m < (t.mapChildren n fun _ => []).size then
        { (t.mapChildren n fun _ => []).node m with parent := none }
      else (t.mapChildren n fun _ => []).node m :=
    fun m => node_foldl_setParent none (t.children n) _ m
  have hparent : ∀ m, (t.detachChildren n).parent m =
      if m ∈ t.children n then none else t.parent m := by
    intro m
    rw [Tree.parent, hfold, size_mapChildren]
    by_cases hm : m ∈ t.children n
    · rw [if_pos ⟨hm, h.child_lt hm⟩, if_pos hm]
    · rw [if_neg fun hc => hm hc.1, if_neg hm]
      exact parent_mapChildren t n m _
  refine ⟨h.unlink (s := t.children n) hparent (fun m => ?_), ?_, hparent⟩
  · have hsame : (t.detachChildren n).children m = (t.mapChildren n fun _ => []).children m := by
      rw [Tree.children, hfold]
      split <;> rfl
    rw [hsame, children_mapChildren]
    by_cases hm : n = m
    · subst hm
      by_cases hlt : n < t.size
      · rw [if_pos ⟨rfl, hlt⟩, List.filter_eq_nil_iff.mpr]
        simp
      · rw [children_of_size_le (Nat.le_of_not_lt hlt)]
        simp
    · rw [if_neg fun hc => hm hc.1, List.filter_eq_self.mpr]
      intro c hc
      have hp := (h.listed m c).mp hc
      have hnot : c ∉ t.children n := fun hmem => by
        rw [(h.listed n c).mp hmem] at hp
        exact hm (Option.some.inj hp)
      simpa using hnot
  · exact (size_foldl_setParent none (t.children n) _).trans (size_mapChildren t n _)

theorem push (kind : Kind) (span : Span) (constant : Bool) :
    (t.push (.alone kind span constant)).Sound :=
  h.congr (fun n => parent_push t kind span constant n) fun n => children_push t kind span constant n

theorem setConstant (n : NodeId) (constant : Bool) : (t.setConstant n constant).Sound := by
  refine h.congr (fun m => ?_) fun m => ?_
  · rw [parent, Tree.setConstant, node_update]
    split <;> rfl
  · rw [children, Tree.setConstant, node_update]
    split <;> rfl

end Sound

end Tree

end Hoist
